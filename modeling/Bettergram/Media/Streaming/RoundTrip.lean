import Bettergram.Media.Streaming.FileSlices

/-! # What is unloaded is loaded again

The entry that is put to the cache for the header or a slice gives new slices
of the same file the same parts.
-/

namespace Bettergram.Media.Streaming

variable {file : Bytes} {s s' t : Slices}

theorem withParts_parts {r : Bytes} {parts : Parts} (h : Holds r parts) {was : Slice}
    (hwas : Holds r was.parts) : Holds r (was.withParts parts).parts ∧
      ∀ o, (was.withParts parts).parts.contains o ↔ was.parts.contains o ∨ parts.contains o :=
  hwas.foldl_emplace h

theorem withParts_of_nil {r : Bytes} {parts : Parts} (h : Holds r parts) (was : Slice)
    (hwas : was.parts = []) : (was.withParts parts).parts = parts := by
  have hnil : Holds r was.parts := hwas ▸ Holds.nil
  obtain ⟨hholds, hcontains⟩ := withParts_parts h hnil
  refine hholds.ext h fun o => ?_
  rw [hcontains, hwas]
  simp [Parts.contains]

namespace Slices

/-- The header mode is the one that was found, and a good header's parts are in the first slice. -/
structure Consistent (s : Slices) : Prop where
  full : s.headerMode = .Full → s.isFullInHeader
  good : s.headerMode = .Good → s.computeIsGoodHeader
  small : s.headerMode = .Small → ¬s.isFullInHeader ∧ ¬s.computeIsGoodHeader
  first : s.headerMode = .Good → ∀ slice, s.data[0]? = some slice → slice.loadedFromCache →
    ∀ o < kInSlice, s.header.parts.contains o → slice.parts.contains o

/-- New slices that wait for the entry with a number. -/
def awaiting (size number : ℕ) : Option Slices := do
  let s ← new size true
  if number = 0 then some s
  else s.modifySlice (number - 1) fun slice => some { slice with loadingFromCache := true }

theorem new_spec (h : new file.length true = some s) : s.headerMode = .Unknown ∧
    s.header = { loadingFromCache := true } ∧ ∀ (i : ℕ) (slice : Slice), s.data[i]? = some slice → slice = {} := by
  by_cases hpos : 0 < file.length
  · rw [new, if_pos hpos] at h
    obtain rfl := Option.some.inj h
    refine ⟨rfl, rfl, fun i slice hslice => ?_⟩
    dsimp only at hslice
    split_ifs at hslice
    · simp at hslice
    · exact List.eq_of_mem_replicate (List.mem_of_getElem? hslice)
  · rw [new, if_neg hpos] at h
    cases h

theorem serializeSlice_ne_nil {slice : Slice} {maxSize : ℕ} {data : Bytes}
    (h : serializeSlice slice maxSize = some data) : slice.parts ≠ [] := by
  obtain ⟨back, hback, -⟩ := Option.bind_eq_some_iff.mp h
  rintro hnil
  rw [hnil] at hback
  cases hback

/-! ## A slice -/

theorem round_trip_slice (hsize : file.length < 2 ^ 31) (h : OfFile file s) {i : ℕ} {slice : Slice}
    (hslice : s.data[i]? = some slice) {data : Bytes}
    (hdata : serializeSlice slice (s.maxSliceSize (i + 1)) = some data) :
    (∃ t t' slice', awaiting file.length (i + 1) = some t ∧
      t.processCacheResult (i + 1) data = some t' ∧ t'.data[i]? = some slice' ∧
      slice'.parts = slice.parts) ∧
    (IsContiguousSerialization data.length (s.maxSliceSize (i + 1)) ↔
      data = slice.parts.flatMap Prod.snd) := by
  have hi : i < s.data.length := (List.getElem?_eq_some_iff.mp hslice).1
  have hholds := h.data i slice hslice
  have hlength : (sliceBytes file i).length < 2 ^ 31 := by
    rw [length_sliceBytes]
    omega
  obtain ⟨new, hnew⟩ := new_returns h.nonempty true
  have hof := new_ofFile hnew
  have hcount : new.data.length = s.data.length := hof.length_data.trans h.length_data.symm
  obtain ⟨was, hwas⟩ : ∃ was, new.data[i]? = some was :=
    ⟨_, List.getElem?_eq_getElem (hcount ▸ hi)⟩
  have hempty : was = {} := (new_spec hnew).2.2 i was hwas
  subst hempty
  rw [h.maxSliceSize_succ hi] at hdata ⊢
  obtain ⟨⟨rest, hprocess⟩, hplain⟩ := processCacheData_serializeSlice hlength hholds hdata
    { loadingFromCache := true } rfl (by simp)
  refine ⟨?_, hplain⟩
  have hset : new.modifySlice i (fun slice => some { slice with loadingFromCache := true }) =
      some { new with data := new.data.set i { loadingFromCache := true } } :=
    modifySlice_of hwas rfl
  have hinside : i < (new.data.set i { loadingFromCache := true }).length := by
    rw [List.length_set, hcount]
    exact hi
  have hmax : maxSliceSize (i + 1) { new with data := new.data.set i { loadingFromCache := true } } =
      (sliceBytes file i).length :=
    (hof.set { loadingFromCache := true } Holds.nil).maxSliceSize_succ hinside
  have hat : ∀ slice : Slice, (new.data.set i slice)[i]? = some slice := fun slice =>
    List.getElem?_set_self (hcount ▸ hi)
  obtain ⟨restored, hrestored⟩ : ∃ restored, restored =
      Slice.withParts slice.parts { loadingFromCache := true } := ⟨_, rfl⟩
  refine ⟨{ new with data := new.data.set i { loadingFromCache := true } },
    { new with data := (new.data.set i { loadingFromCache := true }).set i restored }, restored,
    ?_, ?_, List.getElem?_set_self hinside, by rw [hrestored]; exact withParts_of_nil hholds _ rfl⟩
  · rw [awaiting, hnew, Option.bind_eq_bind, Option.bind_some, if_neg (Nat.succ_ne_zero i),
      Nat.add_sub_cancel, hset]
  · rw [processCacheResult, if_pos (Nat.succ_le_of_lt hinside), if_neg (Nat.succ_ne_zero i), processSliceResult,
      Nat.add_sub_cancel]
    refine modifySlice_of (hat _) ?_
    rw [if_pos rfl, hmax, hprocess, hrestored]
    rfl

/-! ## The header -/

/-- The modes are found again from the same header. -/
theorem headerDone_true_eq (hmode : t.headerMode = .Unknown) : t.headerDone true = some { t with
    headerMode := if t.isFullInHeader then .Full else if t.computeIsGoodHeader then .Good
      else .Small } := by
  rw [headerDone, if_neg (not_not.mpr hmode)]
  rfl

theorem computeIsGoodHeader_congr (hsize : t.size = s.size) (hparts : t.header.parts = s.header.parts) :
    t.computeIsGoodHeader ↔ s.computeIsGoodHeader := by
  rw [computeIsGoodHeader, computeIsGoodHeader, isFullInHeader, isFullInHeader, hsize, hparts]

theorem OfFile.withHeader (h : OfFile file s) (header : Slice) (hheader : Holds file header.parts) :
    OfFile file { s with header := header } :=
  ⟨h.size_eq, h.nonempty, h.length_data, hheader, h.data⟩

theorem OfFile.withMode (h : OfFile file s) (mode : HeaderMode) :
    OfFile file { s with headerMode := mode } :=
  ⟨h.size_eq, h.nonempty, h.length_data, h.header, h.data⟩

/-- A new reader that has read the header's parts: they are put to their slices too, when they are
not the whole file. -/
theorem applyHeaderCacheData_new (h : OfFile file s) (hcons : s.Consistent)
    (hknown : s.headerMode ≠ .Unknown ∧ s.headerMode ≠ .NoCache) (hne : s.header.parts ≠ [])
    {fresh : Slices} (hfresh : OfFile file fresh) (hmode : fresh.headerMode = .Unknown)
    (hempty : ∀ (i : ℕ) (slice : Slice), fresh.data[i]? = some slice → slice = {})
    (hparts : fresh.header.parts = s.header.parts) :
    ∃ t, fresh.applyHeaderCacheData = some t ∧ OfFile file t ∧ t.header = fresh.header ∧
      t.headerMode = s.headerMode ∧ ∀ i slice, t.data[i]? = some slice →
        slice.loadedFromCache = false ∧
        ∀ o, slice.parts.contains o ↔ o < kInSlice ∧ s.header.parts.contains (i * kInSlice + o) := by
  have hnil : fresh.header.parts ≠ [] := by rwa [hparts]
  have hgood : ¬fresh.headerMode = .Good := by simp [hmode]
  have hsize : fresh.size = s.size := hfresh.size_eq.trans h.size_eq.symm
  rw [applyHeaderCacheData, if_neg hnil, if_neg hgood, if_neg (not_not.mpr hmode)]
  by_cases hfull : fresh.isFullInHeader
  · have hfull' : s.isFullInHeader := by rwa [isFullInHeader, ← hsize]
    have hsame : s.headerMode = .Full := by
      cases hs : s.headerMode with
      | Unknown => exact absurd hs hknown.1
      | Small => exact absurd hfull' (hcons.small hs).1
      | Good => exact absurd hfull' (hcons.good hs).1
      | Full => rfl
      | NoCache => exact absurd hs hknown.2
    rw [if_pos hfull, headerDone_true_eq hmode, if_pos hfull, hsame]
    refine ⟨_, rfl, hfresh.withMode .Full, rfl, rfl, fun i slice hslice => ?_⟩
    exact absurd hfull (hfresh.not_full (List.getElem?_eq_some_iff.mp hslice).1)
  · obtain ⟨t, happly, hof, happlied⟩ := applyWhile_returns hfresh hfresh.header le_rfl
      fun o _ _ slice hslice => by
        rw [hempty _ slice hslice]
        simp [Parts.contains]
    have hheader : t.header = fresh.header := by rw [happlied.same]
    have htmode : t.headerMode = .Unknown := by
      rw [happlied.same]
      exact hmode
    have htsize : t.size = s.size := by
      rw [happlied.same]
      exact hsize
    have htfull : ¬t.isFullInHeader := by
      rw [isFullInHeader, htsize, ← hsize]
      exact hfull
    have hsfull : ¬s.isFullInHeader := by
      rw [isFullInHeader, ← hsize]
      exact hfull
    have hcomputed : t.computeIsGoodHeader ↔ s.computeIsGoodHeader :=
      computeIsGoodHeader_congr htsize (by rw [hheader, hparts])
    have hfound : (if t.computeIsGoodHeader then HeaderMode.Good else .Small) = s.headerMode := by
      cases hs : s.headerMode with
      | Unknown => exact absurd hs hknown.1
      | Small => exact if_neg (hcomputed.not.mpr (hcons.small hs).2)
      | Good => exact if_pos (hcomputed.mpr (hcons.good hs))
      | Full => exact absurd (hcons.full hs) hsfull
      | NoCache => exact absurd hs hknown.2
    rw [if_neg hfull, happly, Option.bind_some, headerDone_true_eq htmode, if_neg htfull, hfound]
    refine ⟨_, rfl, hof.withMode s.headerMode, hheader, rfl, fun i slice hslice => ?_⟩
    obtain ⟨was, hwas, -, hloaded, hcontains⟩ := happlied.contains i slice hslice
    obtain rfl := hempty i was hwas
    have hi : i < fresh.data.length := (List.getElem?_eq_some_iff.mp hwas).1
    refine ⟨hloaded, fun o => ?_⟩
    rw [hcontains, hparts]
    simp [Parts.contains, hi]

/-- The header's entry gives the header, in the same mode. -/
theorem round_trip_header (hsize : file.length < 2 ^ 31) (h : OfFile file s) (hcons : s.Consistent)
    (hknown : s.headerMode ≠ .Unknown ∧ s.headerMode ≠ .NoCache) (hgood : ¬s.isGoodHeader)
    {data : Bytes} (hdata : serializeSlice s.header (s.maxSliceSize 0) = some data) :
    (∃ t t', awaiting file.length 0 = some t ∧ t.processCacheResult 0 data = some t' ∧
      t'.header.parts = s.header.parts ∧ t'.headerMode = s.headerMode) ∧
    (IsContiguousSerialization data.length (s.maxSliceSize 0) ↔
      data = s.header.parts.flatMap Prod.snd) := by
  obtain ⟨fresh, hnew⟩ := new_returns h.nonempty true
  obtain ⟨hmode, hheader, hempty⟩ := new_spec hnew
  have hof := new_ofFile hnew
  have hne := serializeSlice_ne_nil hdata
  rw [h.maxSliceSize_zero] at hdata ⊢
  obtain ⟨⟨rest, hprocess⟩, hplain⟩ := processCacheData_serializeSlice hsize h.header hdata
    { loadingFromCache := true } rfl (by simp)
  refine ⟨?_, hplain⟩
  have hparts := withParts_of_nil h.header { loadingFromCache := true } rfl
  obtain ⟨restored, hrestored⟩ : ∃ restored, restored =
    Slice.withParts s.header.parts { loadingFromCache := true } := ⟨_, rfl⟩
  rw [← hrestored] at hprocess hparts
  obtain ⟨t', happly, hof', hheader', hmode', -⟩ := applyHeaderCacheData_new h hcons hknown hne
    (hof.withHeader restored (by rw [hparts]; exact h.header)) hmode hempty hparts
  have hgood' : ¬t'.isGoodHeader := by
    rw [isGoodHeader, hmode']
    exact hgood
  have hfresh : ¬fresh.isGoodHeader := by simp [isGoodHeader, hmode]
  refine ⟨fresh, t', ?_, ?_, by rw [hheader']; exact hparts, hmode'⟩
  · rw [awaiting, hnew]
    rfl
  · rw [processCacheResult, if_pos (Nat.zero_le _), if_pos rfl, if_neg hfresh, processHeaderResult,
      hheader, if_pos rfl, hof.maxSliceSize_zero, hprocess, Option.bind_eq_bind, Option.bind_some]
    dsimp only
    rw [happly, Option.bind_eq_bind, Option.bind_some, if_neg hgood']

/-! ## A good header and the first slice -/

/-- A slice of full size has at most 64 parts, all of full size. -/
theorem full_slice_parts {r : Bytes} {parts : Parts} (h : Holds r parts) (hr : r.length = kInSlice) :
    parts.length ≤ 64 ∧ (parts.map fun part => part.2.length).sum = parts.length * kPartSize := by
  have hpos := kPartSize_pos
  have hpart : ∀ part ∈ parts, part.1 / kPartSize < 64 ∧ part.2.length = kPartSize := by
    intro part hpart
    obtain ⟨j, hj⟩ := h.dvd part hpart
    have hlt := h.lt part hpart
    rw [hr, kInSlice_eq, hj, Nat.mul_comm] at hlt
    have hj64 := Nat.lt_of_mul_lt_mul_right hlt
    have hle : kPartSize * j + kPartSize ≤ 64 * kPartSize := by
      have := Nat.mul_le_mul_left kPartSize hj64
      rwa [Nat.mul_succ, Nat.mul_comm kPartSize 64] at this
    refine ⟨by rwa [hj, Nat.mul_div_cancel_left _ hpos], ?_⟩
    rw [h.eq part hpart, length_partAt, hr, kInSlice_eq, hj]
    omega
  have hmapped : Sorted (parts.map fun part => (part.1 / kPartSize, part.2)) := by
    refine List.pairwise_map.mpr (List.Pairwise.imp_of_mem ?_
      (show parts.Pairwise fun a b => a.1 < b.1 from h.sorted))
    intro a b ha hb hab
    obtain ⟨i, hi⟩ := h.dvd a ha
    obtain ⟨j, hj⟩ := h.dvd b hb
    dsimp only
    rw [hi, hj] at hab
    rw [hi, hj, Nat.mul_div_cancel_left _ hpos, Nat.mul_div_cancel_left _ hpos]
    exact Nat.lt_of_mul_lt_mul_left hab
  have hcount := hmapped.length_le (by
    intro part hmem
    obtain ⟨was, hwas, rfl⟩ := List.mem_map.mp hmem
    exact (hpart was hwas).1)
  rw [List.length_map] at hcount
  refine ⟨hcount, ?_⟩
  have hsizes : parts.map (fun part => part.2.length) = List.replicate parts.length kPartSize :=
    List.eq_replicate_iff.mpr ⟨List.length_map .., fun n hn => by
      obtain ⟨part, hmem, rfl⟩ := List.mem_map.mp hn
      exact (hpart part hmem).2⟩
  rw [hsizes, List.sum_replicate_nat]

/-- What is behind the header is never taken for a plain first slice. -/
theorem first_not_contiguous {r : Bytes} {slice : Slice} (h : Holds r slice.parts)
    (hr : r.length = kInSlice) {zeros : Bytes} (hzeros : zeros.length ≤ 2) :
    ¬IsContiguousSerialization (serializeComplexSlice slice ++ zeros).length r.length := by
  obtain ⟨hcount, hsum⟩ := full_slice_parts h hr
  have hlarge : 1024 < kPartSize := by simp [kPartSize]
  have hmod : (serializeComplexSlice slice ++ zeros).length % kPartSize =
      4 + 8 * slice.parts.length + zeros.length := by
    rw [List.length_append, length_serializeComplexSlice, hsum, Nat.add_right_comm,
      Nat.add_mul_mod_self_right, Nat.mod_eq_of_lt (by omega)]
  rintro (hzero | heq)
  · omega
  · rw [heq, hr, kInSlice_eq, Nat.mul_mod_left] at hmod
    omega

theorem OfFile.first_full (h : OfFile file s) (hfull : ¬s.isFullInHeader) :
    (sliceBytes file 0).length = kInSlice := by
  have hle : kInSlice ≤ kMaxOnlyInHeader := by
    rw [kInSlice_eq, kMaxOnlyInHeader]
    exact Nat.mul_le_mul_right _ (by norm_num)
  rw [isFullInHeader, h.size_eq] at hfull
  rw [length_sliceBytes]
  omega

theorem round_trip_good (hsize : file.length < 2 ^ 31) (h : OfFile file s) (hcons : s.Consistent)
    (hgood : s.headerMode = .Good) (hne : s.header.parts ≠ []) {slice : Slice}
    (hslice : s.data[0]? = some slice) (hloaded : slice.loadedFromCache) {data : Bytes}
    (hdata : data = appendZeros (s.maxSliceSize 0) 3 (serializeComplexSlice s.header ++
      serializeComplexSlice { slice with
        parts := (slice.parts.filter fun part => !s.header.parts.contains part.1) })) :
    (∃ t t' slice', awaiting file.length 0 = some t ∧ t.processCacheResult 0 data = some t' ∧
      t'.header.parts = s.header.parts ∧ t'.headerMode = s.headerMode ∧
      t'.data[0]? = some slice' ∧ slice'.parts = slice.parts) ∧
    ¬IsContiguousSerialization data.length (s.maxSliceSize 0) := by
  obtain ⟨fresh, hnew⟩ := new_returns h.nonempty true
  obtain ⟨hmode, hheader, hempty⟩ := new_spec hnew
  have hof := new_ofFile hnew
  have hi : 0 < s.data.length := (List.getElem?_eq_some_iff.mp hslice).1
  have hholds := h.data 0 slice hslice
  obtain ⟨others, hothers⟩ : ∃ others : Slice, others = { slice with
      parts := (slice.parts.filter fun part => !s.header.parts.contains part.1) } := ⟨_, rfl⟩
  have hothersHolds : Holds (sliceBytes file 0) others.parts := by
    rw [hothers]
    exact hholds.sublist List.filter_sublist
  have hothersContain : ∀ o, others.parts.contains o ↔
      slice.parts.contains o ∧ ¬s.header.parts.contains o := by
    intro o
    rw [hothers, contains_iff, contains_iff]
    simp only [List.mem_filter, Bool.not_eq_true']
    constructor
    · rintro ⟨part, ⟨hmem, hnot⟩, rfl⟩
      exact ⟨⟨part, hmem, rfl⟩, by rw [hnot]; simp⟩
    · rintro ⟨⟨part, hmem, rfl⟩, hnot⟩
      exact ⟨part, ⟨hmem, by simpa using hnot⟩, rfl⟩
  rw [h.maxSliceSize_zero, ← hothers] at hdata
  rw [h.maxSliceSize_zero]
  obtain ⟨zeros, hzeros, happend, hcomplex⟩ := appendZeros_spec file.length
    (serializeComplexSlice s.header ++ serializeComplexSlice others)
  rw [happend] at hdata
  subst hdata
  refine ⟨?_, hcomplex⟩
  rw [List.append_assoc] at hcomplex ⊢
  have hprocess := processCacheData_complex hsize h.header
    (serializeComplexSlice others ++ zeros) { loadingFromCache := true } hcomplex rfl (by simp)
  have hparts := withParts_of_nil h.header { loadingFromCache := true } rfl
  obtain ⟨restored, hrestored⟩ : ∃ restored, restored =
    Slice.withParts s.header.parts { loadingFromCache := true } := ⟨_, rfl⟩
  rw [← hrestored] at hprocess hparts
  have hknown : s.headerMode ≠ .Unknown ∧ s.headerMode ≠ .NoCache := by simp [hgood]
  obtain ⟨t, happly, hoft, hheadert, hmodet, hslices⟩ := applyHeaderCacheData_new h hcons hknown hne
    (hof.withHeader restored (by rw [hparts]; exact h.header)) hmode hempty hparts
  have hcount : t.data.length = s.data.length := hoft.length_data.trans h.length_data.symm
  obtain ⟨first, hfirst⟩ : ∃ first, t.data[0]? = some first :=
    ⟨_, List.getElem?_eq_getElem (hcount ▸ hi)⟩
  obtain ⟨hnotLoaded, hcontains⟩ := hslices 0 first hfirst
  have hfirstFull := hoft.first_full (hoft.not_full (hcount ▸ hi))
  have hfirstSize : (sliceBytes file 0).length < 2 ^ 31 := by
    rw [hfirstFull, kInSlice_eq, kPartSize]
    norm_num
  have hsecond := processCacheData_complex hfirstSize hothersHolds zeros
    { first with loadingFromCache := true } (first_not_contiguous hothersHolds hfirstFull hzeros) rfl
    (by simp [hnotLoaded])
  obtain ⟨hrestoredHolds, hrestoredContain⟩ := withParts_parts hothersHolds
    (show Holds _ ({ first with loadingFromCache := true } : Slice).parts from hoft.data 0 first hfirst)
  obtain ⟨last, hlast⟩ : ∃ last, last =
    Slice.withParts others.parts { first with loadingFromCache := true } := ⟨_, rfl⟩
  rw [← hlast] at hsecond hrestoredHolds hrestoredContain
  have hfresh : ¬fresh.isGoodHeader := by simp [isGoodHeader, hmode]
  have hgoodt : t.isGoodHeader := hmodet.trans hgood
  have hinside : 0 < (t.data.set 0 { first with loadingFromCache := true }).length := by
    rw [List.length_set, hcount]
    exact hi
  have hmax : maxSliceSize 1 { t with data := t.data.set 0 { first with loadingFromCache := true } } =
      (sliceBytes file 0).length :=
    (hoft.set { first with loadingFromCache := true } (hoft.data 0 first hfirst)).maxSliceSize_succ
      hinside
  have hmark : t.modifySlice 0 (fun slice => some { slice with loadingFromCache := true }) =
      some { t with data := t.data.set 0 { first with loadingFromCache := true } } :=
    modifySlice_of hfirst rfl
  refine ⟨fresh, { t with data := (t.data.set 0 { first with loadingFromCache := true }).set 0 last },
    last, ?_, ?_, by rw [hheadert]; exact hparts, hmodet, List.getElem?_set_self hinside, ?_⟩
  · rw [awaiting, hnew]
    rfl
  · rw [processCacheResult, if_pos (Nat.zero_le _), if_pos rfl, if_neg hfresh, processHeaderResult,
      hheader, if_pos rfl, hof.maxSliceSize_zero, hprocess, Option.bind_eq_bind, Option.bind_some]
    dsimp only
    rw [happly, Option.bind_eq_bind, Option.bind_some, if_pos hgoodt, hmark,
      Option.bind_some, processSliceResult]
    refine modifySlice_of (List.getElem?_set_self (by rw [hcount]; exact hi)) ?_
    rw [if_pos rfl, hmax, hsecond]
    rfl
  · refine hrestoredHolds.ext hholds fun o => ?_
    rw [hrestoredContain, hothersContain, hcontains, Nat.zero_mul, Nat.zero_add]
    have hin : s.header.parts.contains o → o < kInSlice → slice.parts.contains o := fun ho hlt =>
      hcons.first hgood slice hslice hloaded o hlt ho
    constructor
    · rintro (⟨hlt, ho⟩ | ⟨ho, -⟩)
      · exact hin ho hlt
      · exact ho
    · intro ho
      by_cases hheader : s.header.parts.contains o
      · obtain ⟨part, hmem, rfl⟩ := contains_iff.mp ho
        have hlt := hholds.lt part hmem
        rw [length_sliceBytes] at hlt
        exact .inl ⟨hlt.trans_le (min_le_left ..), hheader⟩
      · exact .inr ⟨ho, hheader⟩

/-! ## Any entry -/

/-- The entry of a slice that is not the header or held together with it. -/
theorem serializeAndUnloadSlice_slice {n : ℕ} {entry : SerializedSlice}
    (hheader : ¬(n = 0 ∨ (s.isGoodHeader ∧ n = 1)))
    (h : s.serializeAndUnloadSlice n = some (entry, s')) :
    ∃ slice, s.data[n - 1]? = some slice ∧ entry.number = n ∧
      serializeSlice slice (s.maxSliceSize n) = some entry.data := by
  rw [serializeAndUnloadSlice] at h
  split_ifs at h
  obtain ⟨slice, hslice, h⟩ := Option.bind_eq_some_iff.mp h
  obtain ⟨data, hdata, h⟩ := Option.bind_eq_some_iff.mp h
  cases h
  exact ⟨slice, hslice, rfl, hdata⟩

/-- The header's entry, with the first slice when the header is good. -/
theorem serializeAndUnloadSlice_header {n : ℕ} {entry : SerializedSlice}
    (hheader : n = 0 ∨ (s.isGoodHeader ∧ n = 1))
    (h : s.serializeAndUnloadSlice n = some (entry, s')) :
    (s.headerMode ≠ .Unknown ∧ s.headerMode ≠ .NoCache) ∧ entry.number = 0 ∧
      (¬s.isGoodHeader → serializeSlice s.header (s.maxSliceSize 0) = some entry.data) ∧
      (s.isGoodHeader → s.header.parts ≠ [] ∧ ∃ slice, s.data[0]? = some slice ∧
        slice.loadedFromCache ∧ entry.data = appendZeros (s.maxSliceSize 0) 3
          (serializeComplexSlice s.header ++ serializeComplexSlice { slice with
            parts := (slice.parts.filter fun part => !s.header.parts.contains part.1) })) := by
  rw [serializeAndUnloadSlice] at h
  split_ifs at h with hknown
  refine ⟨⟨hknown.1, hknown.2.1⟩, ?_⟩
  rw [serializeHeader] at h
  by_cases hgood : s.isGoodHeader
  · rw [if_pos hgood] at h
    split_ifs at h with hne
    obtain ⟨⟨first, t⟩, hfirst, h⟩ := Option.bind_eq_some_iff.mp h
    rw [serializeAndUnloadFirstSliceNoHeader] at hfirst
    obtain ⟨slice, hslice, hfirst⟩ := Option.bind_eq_some_iff.mp hfirst
    split_ifs at hfirst with hloaded
    cases hfirst
    cases h
    refine ⟨rfl, fun hnot => absurd hgood hnot, fun _ => ⟨hne, slice, hslice, hloaded, ?_⟩⟩
    simp [maxSliceSize]
  · rw [if_neg hgood] at h
    obtain ⟨data, hdata, h⟩ := Option.bind_eq_some_iff.mp h
    cases h
    exact ⟨rfl, fun _ => hdata, fun hg => absurd hg hgood⟩

/-- The bytes an entry has when it is plain. -/
def plainData (number : ℕ) (s : Slices) : Bytes :=
  (if number = 0 then s.header.parts else (s.data[number - 1]?.map Slice.parts).getD []).flatMap
    Prod.snd

/-- Slices of five bytes that are all in the header. -/
def fiveLoaded : Slices :=
  { size := 5, headerMode := .Full, header := { parts := [(0, [1, 2, 3, 4, 5])] } }

end Slices

end Bettergram.Media.Streaming
