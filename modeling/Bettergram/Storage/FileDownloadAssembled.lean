import Bettergram.Storage.FileDownloadRuns

/-! # The file that a loader assembles

Parts come in any order, some twice, some from a CDN that may say anything. As long
as the data center says what is so and no other bytes have the hash of a part, a
loader that finishes without being cancelled has the bytes of the file.
-/

namespace Bettergram.Storage.FileDownload

open Foundation

/-- The bytes of a file that a part at the offset has. -/
def partOf (file : List UInt8) (offset : ℕ) : List UInt8 := (file.drop offset).take partSize

/-- Where the parts are put. -/
def Loader.content (l : Loader) : List UInt8 := if l.fileIsOpen then l.file else l.data

/-- What a finished loader has. -/
def Loader.stored (l : Loader) : List UInt8 := if l.hasFilename then l.file else l.data

/-- Both agree on the part at the offset. -/
def Holds (file content : List UInt8) (offset : ℕ) : Prop :=
  ∀ i, offset ≤ i → i < offset + partSize → content[i]? = file[i]?

/-! ## A part is put in its place -/

theorem feedData_eq (data buffer : List UInt8) (offset : ℕ) : Turn.feedData data offset buffer =
    overwrite (Turn.resized data offset) offset buffer := by
  have hgrown : (if data.length < offset then Turn.resized data offset else data) =
      Turn.resized data offset := by
    split
    · rfl
    · rename_i hle
      rw [Turn.resized, Nat.sub_eq_zero_of_le (not_lt.mp hle), List.replicate_zero,
        List.append_nil]
  have hlength : offset ≤ (Turn.resized data offset).length := by
    rw [Turn.resized, List.length_append, List.length_replicate]
    omega
  rw [Turn.feedData]
  dsimp only
  rw [hgrown]
  generalize Turn.resized data offset = grown at hlength ⊢
  split
  · rename_i heq
    rw [heq, overwrite_length]
  split
  · -- The zeros that are put behind the end are overwritten.
    rename_i hne hlt
    rw [overwrite, overwrite, Turn.resized, List.take_append_of_le_length hlength]
    congr 1
    rw [List.drop_eq_nil_of_le, List.drop_eq_nil_of_le]
    · omega
    · rw [List.length_append, List.length_replicate]
      omega
  · rfl

section

variable {file content : List UInt8} {offset : ℕ}

theorem length_partOf (file : List UInt8) (offset : ℕ) :
    (partOf file offset).length = min partSize (file.length - offset) := by
  rw [partOf, List.length_take, List.length_drop]

theorem length_resized (content : List UInt8) (offset : ℕ) :
    (Turn.resized content offset).length = max content.length offset := by
  rw [Turn.resized, List.length_append, List.length_replicate]
  omega

theorem length_put (hne : partOf file offset ≠ []) (hlength : content.length ≤ file.length) :
    (overwrite (Turn.resized content offset) offset (partOf file offset)).length ≤
      file.length := by
  have hpart := length_partOf file offset
  have hpos : 0 < (partOf file offset).length := List.length_pos_iff.mpr hne
  rw [length_overwrite _ _ (by rw [length_resized]; omega), length_resized]
  omega

/-- Inside the part are its bytes, and what was there before elsewhere. -/
theorem getElem?_put (file content : List UInt8) (offset i : ℕ) :
    (overwrite (Turn.resized content offset) offset (partOf file offset))[i]? =
      if offset ≤ i ∧ i < offset + (partOf file offset).length then file[i]?
      else (Turn.resized content offset)[i]? := by
  rw [getElem?_overwrite _ _ (by rw [length_resized]; omega)]
  split
  · rename_i hin
    have hpart := length_partOf file offset
    rw [partOf, List.getElem?_take_of_lt (by omega), List.getElem?_drop]
    congr 1
    omega
  · rfl

theorem holds_put (hne : partOf file offset ≠ []) (hlength : content.length ≤ file.length) :
    Holds file (overwrite (Turn.resized content offset) offset (partOf file offset)) offset := by
  intro i hfrom hto
  have hpart := length_partOf file offset
  have hpos : 0 < (partOf file offset).length := List.length_pos_iff.mpr hne
  rw [getElem?_put]
  split
  · rfl
  · -- The file ends before, and so do the contents.
    have hend : file.length ≤ i := by omega
    rw [List.getElem?_eq_none hend, List.getElem?_eq_none]
    rw [length_resized]
    omega

/-- A part that was there stays. -/
theorem Holds.put {other : ℕ} (h : Holds file content other) (hne : partOf file offset ≠ []) :
    Holds file (overwrite (Turn.resized content offset) offset (partOf file offset)) other := by
  intro i hfrom hto
  have hpart := length_partOf file offset
  have hpos : 0 < (partOf file offset).length := List.length_pos_iff.mpr hne
  rw [getElem?_put]
  split
  · rfl
  by_cases hin : i < content.length
  · rw [Turn.resized, List.getElem?_append_left hin]
    exact h i hfrom hto
  · -- Nothing of the file is behind the contents in a part that is there.
    have hnone : file[i]? = none := by
      rw [← h i hfrom hto]
      exact List.getElem?_eq_none (not_lt.mp hin)
    have hend : file.length ≤ i := List.getElem?_eq_none_iff.mp hnone
    rw [hnone, List.getElem?_eq_none]
    rw [length_resized]
    omega

end

/-! ## What a loader has and what it waits for -/

/-- The request of an entry brings a part. -/
def Loader.Requests (l : Loader) (offset : ℕ) : Prop :=
  ∃ entry ∈ l.sentRequests, entry.1 ≠ l.cdnHashesRequestId ∧ entry.2.offset = offset

/-- Every part that was asked for waits, is in the table, waits for its hash, or is there. -/
structure Covered (file : List UInt8) (l : Loader) (p : List ℕ) : Prop where
  size : l.size = 0 ∨ l.size = file.length
  next : partSize ∣ l.nextRequestOffset
  pending : ∀ offset ∈ p, partSize ∣ offset ∧ offset < l.nextRequestOffset
  sent : ∀ entry ∈ l.sentRequests,
    partSize ∣ entry.2.offset ∧ entry.2.offset < l.nextRequestOffset
  parked : ∀ offset ∈ l.cdnUncheckedParts.map Prod.fst,
    partSize ∣ offset ∧ offset < l.nextRequestOffset
  covered : ∀ offset, partSize ∣ offset → offset < l.nextRequestOffset →
    offset ∈ p ∨ l.Requests offset ∨ offset ∈ l.cdnUncheckedParts.map Prod.fst ∨
      Holds file l.content offset
  length : l.content.length ≤ file.length
  last : l.lastComplete = true → file.length ≤ l.nextRequestOffset
  closed : l.hasFilename = true → l.toCache = .toFileOnly → l.fileIsOpen = false →
    l.nextRequestOffset = 0 ∧ l.lastComplete = false ∧ l.sentRequests = [] ∧
      l.cdnUncheckedParts = [] ∧ p = []
  opened : l.fileIsOpen = true → l.hasFilename = true ∧ l.toCache = .toFileOnly
  queued : l.inQueue = true → l.hasFilename = true → l.toCache = .toFileOnly →
    l.fileIsOpen = true

/-- What is wanted of a loader. -/
structure Right (file : List UInt8) (l : Loader) (p : List ℕ) : Prop where
  running : l.finished = false → l.cancelled = false ∧ Covered file l p
  finished : l.finished = true → l.cancelled = false → l.stored = file

section

variable {file : List UInt8} {l : Loader} {p : List ℕ}

/-- The parts that are there make up the file. -/
theorem content_eq {content : List UInt8} (hlength : content.length ≤ file.length)
    (h : ∀ offset, partSize ∣ offset → offset < file.length → Holds file content offset) :
    content = file := by
  have hpos : 0 < partSize := by decide
  apply List.ext_getElem?
  intro i
  by_cases hi : i < file.length
  · have hfrom : partSize * (i / partSize) ≤ i := Nat.mul_div_le i partSize
    have hto : i < partSize * (i / partSize) + partSize := by
      have := Nat.lt_mul_div_succ i hpos
      rwa [Nat.mul_succ] at this
    exact h _ (Nat.dvd_mul_right _ _) (hfrom.trans_lt hi) i hfrom hto
  · rw [List.getElem?_eq_none (not_lt.mp hi),
      List.getElem?_eq_none (hlength.trans (not_lt.mp hi))]

/-- A complete loader has the file. -/
theorem Covered.complete (h : Covered file l []) (hcomplete : Complete l) :
    (finishedLoader l).stored = file := by
  obtain ⟨hsent, hparts, hlast⟩ := hcomplete
  have hnext : file.length ≤ l.nextRequestOffset := by
    rcases hlast with hlast | ⟨hne, hle⟩
    · exact h.last hlast
    · rcases h.size with hzero | hsize
      · exact absurd hzero hne
      · rw [← hsize]
        exact hle
  have hcontent : l.content = file := by
    apply content_eq h.length
    intro offset haligned hlt
    rcases h.covered offset haligned (hlt.trans_le hnext) with hp | hrequest | hpart | hholds
    · cases hp
    · obtain ⟨entry, hentry, -⟩ := hrequest
      rw [hsent] at hentry
      cases hentry
    · rw [hparts] at hpart
      cases hpart
    · exact hholds
  rw [← hcontent]
  unfold Loader.stored Loader.content finishedLoader
  dsimp only
  cases hname : l.hasFilename with
  | false =>
    cases hopen : l.fileIsOpen with
    | false => rfl
    | true =>
      have := (h.opened hopen).1
      rw [hname] at this
      cases this
  | true =>
    cases hcache : l.toCache with
    | toCacheAsWell =>
      cases hopen : l.fileIsOpen with
      | false => rfl
      | true =>
        have := (h.opened hopen).2
        rw [hcache] at this
        cases this
    | toFileOnly =>
      cases hopen : l.fileIsOpen with
      | true => rfl
      | false =>
        -- Nothing was asked for, so nothing is complete.
        obtain ⟨hzero, hnot, -⟩ := h.closed hname hcache hopen
        rw [hzero] at hlast
        rcases hlast with hlast | ⟨hne, hle⟩
        · rw [hnot] at hlast
          cases hlast
        · exact absurd (Nat.le_zero.mp hle) hne

/-- The contents with a part taken in. -/
theorem content_fed (l : Loader) (offset : ℕ) (buffer : List UInt8) :
    (fedLoader l offset buffer).content = if buffer = [] then l.content
      else overwrite (Turn.resized l.content offset) offset buffer := by
  by_cases hempty : buffer = []
  · have hno : ¬(buffer ≠ [] ∧ l.fileIsOpen = true) := fun h => h.1 hempty
    rw [fedLoader, if_neg hno, if_pos hempty, if_neg (not_not.mpr hempty)]
    rfl
  · cases hopen : l.fileIsOpen with
    | true =>
      rw [fedLoader, if_pos ⟨hempty, hopen⟩, if_neg hempty]
      simp [Loader.content, hopen]
    | false =>
      rw [fedLoader, if_neg (by simp [hopen]), if_neg hempty, if_pos hempty]
      simp [Loader.content, hopen, feedData_eq]

/-- Taking in a part leaves the rest alone. -/
theorem fedLoader_frame (l : Loader) (offset : ℕ) (buffer : List UInt8) :
    (fedLoader l offset buffer).size = l.size ∧
    (fedLoader l offset buffer).nextRequestOffset = l.nextRequestOffset ∧
    (fedLoader l offset buffer).sentRequests = l.sentRequests ∧
    (fedLoader l offset buffer).cdnHashesRequestId = l.cdnHashesRequestId ∧
    (fedLoader l offset buffer).hasFilename = l.hasFilename ∧
    (fedLoader l offset buffer).toCache = l.toCache ∧
    (fedLoader l offset buffer).fileIsOpen = l.fileIsOpen ∧
    (fedLoader l offset buffer).inQueue = l.inQueue ∧
    (fedLoader l offset buffer).cancelled = l.cancelled := by
  unfold fedLoader
  split <;> exact ⟨rfl, rfl, rfl, rfl, rfl, rfl, rfl, rfl, rfl⟩

/-- A part is taken in. -/
theorem Covered.feed {offset : ℕ} (h : Covered file l (offset :: p)) :
    Covered file (fedLoader l offset (partOf file offset)) p := by
  obtain ⟨haligned, hlt⟩ := h.pending offset List.mem_cons_self
  have hcontent := content_fed l offset (partOf file offset)
  have hpart := length_partOf file offset
  -- Both are multiples of the size of a part.
  have hnext : offset + partSize ≤ l.nextRequestOffset := by
    obtain ⟨a, ha⟩ := haligned
    obtain ⟨b, hb⟩ := h.next
    rw [ha, hb] at hlt ⊢
    have hab : a + 1 ≤ b := Nat.lt_of_mul_lt_mul_left hlt
    calc partSize * a + partSize = partSize * (a + 1) := (Nat.mul_succ _ _).symm
      _ ≤ partSize * b := Nat.mul_le_mul_left _ hab
  obtain ⟨hsize, hnextEq, hsentEq, hmarker, hname, hcache, hopen, hqueue, -⟩ :=
    fedLoader_frame l offset (partOf file offset)
  have hparts := Turn.fedLoader_parts l offset (partOf file offset)
  have hlastEq : (fedLoader l offset (partOf file offset)).lastComplete =
      (l.lastComplete || (partOf file offset).isEmpty ||
        decide ((partOf file offset).length % 1024 ≠ 0)) := by
    unfold fedLoader
    split <;> rfl
  constructor
  · rw [hsize]
    exact h.size
  · rw [hnextEq]
    exact h.next
  · rw [hnextEq]
    exact fun other hother => h.pending other (List.mem_cons_of_mem _ hother)
  · rw [hsentEq, hnextEq]
    exact h.sent
  · rw [hparts, hnextEq]
    exact h.parked
  · intro other hdvd hother
    rw [hnextEq] at hother
    rw [Loader.Requests, hsentEq, hmarker, hparts, hcontent]
    have hstays : Holds file l.content other → Holds file (if partOf file offset = [] then l.content
        else overwrite (Turn.resized l.content offset) offset (partOf file offset)) other := by
      intro hholds
      split
      · exact hholds
      · rename_i hne
        exact hholds.put hne
    rcases h.covered other hdvd hother with hp | hrequest | hparked | hholds
    · rcases List.mem_cons.mp hp with heq | hrest
      · right; right; right
        rw [heq]
        split
        · rename_i hempty
          intro i hfrom _
          rw [hempty, List.length_nil] at hpart
          have hend : file.length ≤ i := by
            have : 0 < partSize := by decide
            omega
          rw [List.getElem?_eq_none hend, List.getElem?_eq_none (h.length.trans hend)]
        · rename_i hne
          exact holds_put hne h.length
      · exact .inl hrest
    · exact .inr (.inl hrequest)
    · exact .inr (.inr (.inl hparked))
    · exact .inr (.inr (.inr (hstays hholds)))
  · rw [hcontent]
    split
    · exact h.length
    · rename_i hne
      exact length_put hne h.length
  · intro hlast
    rw [hnextEq]
    rw [hlastEq, Bool.or_eq_true, Bool.or_eq_true, decide_eq_true_eq] at hlast
    rcases hlast with (hlast | hempty) | hshort
    · exact h.last hlast
    · rw [List.isEmpty_iff] at hempty
      rw [hempty, List.length_nil] at hpart
      have : 0 < partSize := by decide
      omega
    · have hwhole : (partOf file offset).length ≠ partSize := by
        intro heq
        rw [heq] at hshort
        exact hshort (by decide)
      omega
  · intro hn hc ho
    rw [hname] at hn
    rw [hcache] at hc
    rw [hopen] at ho
    have := (h.closed hn hc ho).2.2.2.2
    cases this
  · rw [hopen, hname, hcache]
    exact h.opened
  · rw [hqueue, hname, hcache, hopen]
    exact h.queued

/-- A request of the table is finished; its offset waits. -/
theorem Covered.finish {entry : ℕ × RequestData} (h : Covered file l p)
    (hentry : entry ∈ l.sentRequests)
    (honly : ∀ other ∈ l.sentRequests, other.1 = entry.1 → other = entry) :
    Covered file (l.without entry.1) (entry.2.offset :: p) where
  size := h.size
  next := h.next
  pending offset hoffset := by
    rcases List.mem_cons.mp hoffset with heq | hrest
    · rw [heq]
      exact h.sent entry hentry
    · exact h.pending offset hrest
  sent other hother := h.sent other (List.mem_of_mem_filter hother)
  parked := h.parked
  covered offset hdvd hlt := by
    rcases h.covered offset hdvd hlt with hp | ⟨other, hother, hmarker, hoffset⟩ | hrest
    · exact .inl (List.mem_cons_of_mem _ hp)
    · by_cases hsame : other.1 = entry.1
      · rw [honly other hother hsame] at hoffset
        exact .inl (hoffset ▸ List.mem_cons_self)
      · exact .inr (.inl ⟨other, List.mem_filter.mpr ⟨hother, by simpa using hsame⟩, hmarker,
          hoffset⟩)
    · exact .inr (.inr hrest)
  length := h.length
  last := h.last
  closed hname honly' hclosed := by
    have := (h.closed hname honly' hclosed).2.2.1
    rw [this] at hentry
    cases hentry
  opened := h.opened
  queued := h.queued

/-- The request for hashes brings no part. -/
theorem Covered.finishHashes (h : Covered file l p)
    (hpos : ∀ entry ∈ l.sentRequests, entry.1 ≠ 0) :
    Covered file ({ l with cdnHashesRequestId := 0 }.without l.cdnHashesRequestId) p :=
  { h with
    sent := fun other hother => h.sent other (List.mem_of_mem_filter hother)
    covered := fun offset hdvd hlt => (h.covered offset hdvd hlt).imp_right <|
      Or.imp_left fun ⟨entry, hentry, hmarker, hoffset⟩ =>
        ⟨entry, List.mem_filter.mpr ⟨hentry, by simpa using hmarker⟩, hpos entry hentry, hoffset⟩
    closed := fun hname honly hclosed => by
      obtain ⟨hnext, hlast, hsent, hparts, hp⟩ := h.closed hname honly hclosed
      refine ⟨hnext, hlast, ?_, hparts, hp⟩
      change List.filter _ l.sentRequests = []
      rw [hsent, List.filter_nil] }

theorem Covered.unmark (h : Covered file l p) (hpos : ∀ entry ∈ l.sentRequests, entry.1 ≠ 0) :
    Covered file { l with cdnHashesRequestId := 0 } p :=
  { h with
    covered := fun offset hdvd hlt => (h.covered offset hdvd hlt).imp_right <|
      Or.imp_left fun ⟨entry, hentry, _, hoffset⟩ => ⟨entry, hentry, hpos entry hentry, hoffset⟩ }

/-- An offset that waits is asked for. -/
theorem Covered.send {n : ℕ} {data : RequestData} (h : Covered file l (data.offset :: p))
    (hnew : n ≠ l.cdnHashesRequestId) :
    Covered file { l with sentRequests := l.sentRequests ++ [(n, data)] } p :=
  { h with
    pending := fun offset hoffset => h.pending offset (List.mem_cons_of_mem _ hoffset)
    sent := fun entry hentry => by
      rcases List.mem_append.mp hentry with hold | hadded
      · exact h.sent entry hold
      · rw [List.mem_singleton.mp hadded]
        exact h.pending data.offset List.mem_cons_self
    covered := fun offset hdvd hlt => by
      rcases h.covered offset hdvd hlt with hp | ⟨entry, hentry, hmarker, hoffset⟩ | hrest
      · rcases List.mem_cons.mp hp with heq | hp
        · exact .inr (.inl ⟨(n, data), by simp, hnew, heq.symm⟩)
        · exact .inl hp
      · exact .inr (.inl ⟨entry, List.mem_append_left _ hentry, hmarker, hoffset⟩)
      · exact .inr (.inr hrest)
    closed := fun hname honly hclosed => by
      have := (h.closed hname honly hclosed).2.2.2.2
      cases this }

theorem Covered.sendHashes {n : ℕ} {data : RequestData} (h : Covered file l p)
    (hnew : ∀ entry ∈ l.sentRequests, entry.1 ≠ n)
    (hpart : data.offset ∈ l.cdnUncheckedParts.map Prod.fst) :
    Covered file { l with
      sentRequests := l.sentRequests ++ [(n, data)], cdnHashesRequestId := n } p :=
  { h with
    sent := fun entry hentry => by
      rcases List.mem_append.mp hentry with hold | hadded
      · exact h.sent entry hold
      · rw [List.mem_singleton.mp hadded]
        exact h.parked data.offset hpart
    covered := fun offset hdvd hlt => (h.covered offset hdvd hlt).imp_right <|
      Or.imp_left fun ⟨entry, hentry, _, hoffset⟩ =>
        ⟨entry, List.mem_append_left _ hentry, hnew entry hentry, hoffset⟩
    closed := fun hname honly hclosed => by
      obtain ⟨-, -, -, hparts, -⟩ := h.closed hname honly hclosed
      rw [hparts] at hpart
      cases hpart }

/-- The next part is asked for. -/
theorem Covered.load {n : ℕ} {data : RequestData} (h : Covered file l p)
    (hqueue : l.inQueue = true) (hnew : n ≠ l.cdnHashesRequestId)
    (hoffset : data.offset = l.nextRequestOffset) :
    Covered file { l with
      sentRequests := l.sentRequests ++ [(n, data)]
      nextRequestOffset := l.nextRequestOffset + partSize } p := by
  have hpos : 0 < partSize := by decide
  have hgrown : ∀ offset, partSize ∣ offset ∧ offset < l.nextRequestOffset →
      partSize ∣ offset ∧ offset < l.nextRequestOffset + partSize :=
    fun offset hold => ⟨hold.1, hold.2.trans_le (Nat.le_add_right _ _)⟩
  refine { h with
    next := Nat.dvd_add h.next (dvd_refl _)
    pending := fun offset hmem => hgrown offset (h.pending offset hmem)
    parked := fun offset hmem => hgrown offset (h.parked offset hmem)
    last := fun hlast => (h.last hlast).trans (Nat.le_add_right _ _)
    sent := fun entry hentry => ?_
    covered := fun offset hdvd hlt => ?_
    closed := fun hname honly hclosed => ?_ }
  · rcases List.mem_append.mp hentry with hold | hadded
    · exact hgrown _ (h.sent entry hold)
    · rw [List.mem_singleton.mp hadded]
      dsimp only
      rw [hoffset]
      exact ⟨h.next, Nat.lt_add_of_pos_right hpos⟩
  · by_cases hold : offset < l.nextRequestOffset
    · exact (h.covered offset hdvd hold).imp_right <| Or.imp_left
        fun ⟨entry, hentry, hmarker, hentryOffset⟩ =>
          ⟨entry, List.mem_append_left _ hentry, hmarker, hentryOffset⟩
    · have heq : offset = l.nextRequestOffset := by
        obtain ⟨a, rfl⟩ := hdvd
        obtain ⟨b, hb⟩ := h.next
        rw [hb] at hlt hold ⊢
        have hab : b ≤ a := Nat.le_of_mul_le_mul_left (not_lt.mp hold) hpos
        have hba : a < b + 1 := by
          apply Nat.lt_of_mul_lt_mul_left (a := partSize)
          rw [Nat.mul_succ]
          exact hlt
        rw [Nat.le_antisymm (Nat.le_of_lt_succ hba) hab]
      exact .inr (.inl ⟨(n, data), by simp, hnew, hoffset.trans heq.symm⟩)
  · have := h.queued hqueue hname honly
    dsimp only at hclosed
    rw [hclosed] at this
    cases this

theorem Covered.park {offset : ℕ} (h : Covered file l (offset :: p)) (buffer : List UInt8) :
    Covered file { l with cdnUncheckedParts := emplace offset buffer l.cdnUncheckedParts } p :=
  { h with
    pending := fun other hother => h.pending other (List.mem_cons_of_mem _ hother)
    parked := fun other hother => by
      rcases mem_emplace.mp hother with heq | hold
      · rw [heq]
        exact h.pending offset List.mem_cons_self
      · exact h.parked other hold
    covered := fun other hdvd hlt => by
      rcases h.covered other hdvd hlt with hp | hrequest | hparked | hholds
      · rcases List.mem_cons.mp hp with heq | hp
        · exact .inr (.inr (.inl (mem_emplace.mpr (.inl heq))))
        · exact .inl hp
      · exact .inr (.inl hrequest)
      · exact .inr (.inr (.inl (mem_emplace.mpr (.inr hparked))))
      · exact .inr (.inr (.inr hholds))
    closed := fun hname honly hclosed => by
      have := (h.closed hname honly hclosed).2.2.2.2
      cases this }

theorem Covered.unpark {offset : ℕ} (h : Covered file l p)
    (hparked : offset ∈ l.cdnUncheckedParts.map Prod.fst) :
    Covered file { l with
      cdnUncheckedParts := l.cdnUncheckedParts.filter fun other => other.1 ≠ offset }
      (offset :: p) := by
  have hless : ∀ other, other ∈ (l.cdnUncheckedParts.filter fun part => part.1 ≠ offset).map
      Prod.fst → other ∈ l.cdnUncheckedParts.map Prod.fst := by
    intro other hother
    obtain ⟨part, hpart, rfl⟩ := List.mem_map.mp hother
    exact List.mem_map_of_mem (List.mem_of_mem_filter hpart)
  refine { h with
    pending := fun other hother => ?_
    parked := fun other hother => h.parked other (hless other hother)
    covered := fun other hdvd hlt => ?_
    closed := fun hname honly hclosed => ?_ }
  · rcases List.mem_cons.mp hother with heq | hrest
    · rw [heq]
      exact h.parked offset hparked
    · exact h.pending other hrest
  · rcases h.covered other hdvd hlt with hp | hrequest | hold | hholds
    · exact .inl (List.mem_cons_of_mem _ hp)
    · exact .inr (.inl hrequest)
    · by_cases heq : other = offset
      · exact .inl (heq ▸ List.mem_cons_self)
      · obtain ⟨part, hpart, hfirst⟩ := List.mem_map.mp hold
        refine .inr (.inr (.inl (List.mem_map.mpr ⟨part, ?_, hfirst⟩)))
        exact List.mem_filter.mpr ⟨hpart, by rw [decide_eq_true_eq, hfirst]; exact heq⟩
    · exact .inr (.inr (.inr hholds))
  · obtain ⟨-, -, -, hparts, -⟩ := h.closed hname honly hclosed
    rw [hparts] at hparked
    cases hparked

/-- The file is opened before anything is asked for. -/
theorem Covered.openFile (h : Covered file l p) (hname : l.hasFilename = true)
    (honly : l.toCache = .toFileOnly) (hclosed : l.fileIsOpen = false) :
    Covered file { l with fileIsOpen := true, file := [] } p := by
  obtain ⟨hnext, hlast, hsent, hparts, hp⟩ := h.closed hname honly hclosed
  refine { h with
    covered := fun offset _ hlt => ?_
    length := Nat.zero_le _
    closed := fun _ _ hno => by cases hno
    opened := fun _ => ⟨hname, honly⟩
    queued := fun _ _ _ => rfl }
  dsimp only at hlt
  rw [hnext] at hlt
  exact absurd hlt (Nat.not_lt_zero _)

end

/-- What the data center says of a file; no other bytes have the hash of a part of it. -/
def fileTrust {sha256 : List UInt8 → List UInt8} (file : List UInt8)
    (hcollision : ∀ offset buffer, sha256 buffer = sha256 (partOf file offset) →
      buffer = partOf file offset) : Trust sha256 where
  part offset buffer := buffer = partOf file offset
  hash offset hash := hash = sha256 (partOf file offset)
  size size := size = file.length
  checked := hcollision

section

variable {sha256 : List UInt8 → List UInt8} {file : List UInt8}
  {hcollision : ∀ offset buffer, sha256 buffer = sha256 (partOf file offset) →
    buffer = partOf file offset}

/-- Work that changes nothing of what is wanted. -/
theorem Right.of_running {l l' : Loader} {p p' : List ℕ} (h : Right file l p)
    (hfinished : l'.finished = l.finished) (hcancelled : l'.cancelled = l.cancelled)
    (hstored : l.finished = true → l'.stored = l.stored)
    (hcovered : l.finished = false → Covered file l p → Covered file l' p') :
    Right file l' p' where
  running hrunning := by
    rw [hfinished] at hrunning
    obtain ⟨hnot, hold⟩ := h.running hrunning
    exact ⟨hcancelled.trans hnot, hcovered hrunning hold⟩
  finished hdone hnot := by
    rw [hfinished] at hdone
    rw [hcancelled] at hnot
    exact (hstored hdone).trans (h.finished hdone hnot)

theorem Right.work {s s' : Loader × List ℕ} (h : Work (fileTrust file hcollision) s s')
    (hright : Right file s.1 s.2) : Right file s'.1 s'.2 := by
  cases h with
  | frame flight refreshes fileReference paused =>
    exact hright.of_running rfl rfl (fun _ => rfl) fun _ h => { h with }
  | perm hperm =>
    refine hright.of_running rfl rfl (fun _ => rfl) fun _ h => { h with
      pending := fun offset hoffset => h.pending offset (hperm.mem_iff.mpr hoffset)
      covered := fun offset hdvd hlt => (h.covered offset hdvd hlt).imp_left hperm.mem_iff.mp
      closed := fun hname honly hclosed => ?_ }
    obtain ⟨hnext, hlast, hsent, hparts, hp⟩ := h.closed hname honly hclosed
    dsimp only at hp
    rw [hp] at hperm
    exact ⟨hnext, hlast, hsent, hparts, List.nil_perm.mp hperm⟩
  | finish hentry honly =>
    exact hright.of_running rfl rfl (fun _ => rfl) fun _ h => h.finish hentry honly
  | finishHashes hpos => exact hright.of_running rfl rfl (fun _ => rfl) fun _ h => h.finishHashes hpos
  | unmark hpos => exact hright.of_running rfl rfl (fun _ => rfl) fun _ h => h.unmark hpos
  | send hnew => exact hright.of_running rfl rfl (fun _ => rfl) fun _ h => h.send hnew
  | sendHashes hnew hpart =>
    exact hright.of_running rfl rfl (fun _ => rfl) fun _ h => h.sendHashes hnew hpart
  | load hcan hqueue hnew hoffset =>
    exact hright.of_running rfl rfl (fun _ => rfl) fun _ h => h.load hqueue hnew hoffset
  | cdn params hknown htrust =>
    exact hright.of_running rfl rfl (fun _ => rfl) fun _ h => { h with }
  | size hzero htrust =>
    exact hright.of_running rfl rfl (fun _ => rfl) fun _ h => { h with size := .inr htrust }
  | accept hhash => exact hright.of_running rfl rfl (fun _ => rfl) fun _ h => { h with }
  | @feed l p offset buffer hfinished htrust =>
    have hframe := fedLoader_frame l offset buffer
    refine hright.of_running (Turn.fedLoader_finished l offset buffer) hframe.2.2.2.2.2.2.2.2
      (fun hdone => ?_) fun _ h => ?_
    · rw [hfinished] at hdone
      cases hdone
    · obtain rfl : buffer = partOf file offset := htrust
      exact h.feed
  | park buffer => exact hright.of_running rfl rfl (fun _ => rfl) fun _ h => h.park buffer
  | unpark hparked => exact hright.of_running rfl rfl (fun _ => rfl) fun _ h => h.unpark hparked
  | complete hfinished hcomplete =>
    refine ⟨fun hrunning => ?_, fun _ _ => (hright.running hfinished).2.complete hcomplete⟩
    cases hrunning
  | cancel hcancelled =>
    constructor
    · intro hrunning
      rw [hcancelled.finished] at hrunning
      cases hrunning
    · intro _ hnot
      rw [hcancelled.cancelled] at hnot
      cases hnot
  | unqueue =>
    exact hright.of_running rfl rfl (fun _ => rfl) fun _ h => { h with
      queued := fun hqueue => by cases hqueue }
  | enqueue hfinished hopen =>
    exact hright.of_running rfl rfl (fun _ => rfl) fun _ h => { h with
      queued := fun _ => hopen }
  | openFile hfinished hname honly hclosed =>
    refine hright.of_running rfl rfl (fun hdone => ?_) fun _ h => h.openFile hname honly hclosed
    dsimp only at hdone
    rw [hfinished] at hdone
    cases hdone

theorem Right.works {s s' : Loader × List ℕ} (h : Works (fileTrust file hcollision) s s')
    (hright : Right file s.1 s.2) : Right file s'.1 s'.2 := by
  induction h with
  | refl => exact hright
  | tail _ hwork ih => exact ih.work hwork

theorem Loader.Fresh.right {l : Loader} (h : l.Fresh)
    (hsize : l.size = 0 ∨ l.size = file.length) : Right file l [] where
  running _ := by
    refine ⟨h.cancelled, ?_⟩
    constructor
    · exact hsize
    · rw [h.nextRequestOffset]
      exact dvd_zero _
    · exact fun _ hmem => absurd hmem List.not_mem_nil
    · simp [h.sentRequests]
    · simp [h.cdnUncheckedParts]
    · simp [h.nextRequestOffset]
    · simp [Loader.content, h.fileIsOpen, h.data]
    · simp [h.lastComplete]
    · simp [h.nextRequestOffset, h.lastComplete, h.sentRequests, h.cdnUncheckedParts]
    · simp [h.fileIsOpen]
    · simp [h.inQueue]
  finished hdone := by
    rw [h.finished] at hdone
    cases hdone

end

/-! ## Runs with honest data centers -/

namespace World

variable {ι : Type} [DecidableEq ι] (sha256 : List UInt8 → List UInt8)
  (files : ι → List UInt8)

/-- What a data center answers about a file is so; what a CDN answers may be anything. -/
def Honest (w : World ι) : Event ι → Prop
  | .answer i requestId (.file bytes) =>
    ∀ data, (requestId, data) ∈ (w.loaders i).sentRequests → bytes = partOf (files i) data.offset
  | .answer i requestId (.webFile size bytes) => size = (files i).length ∧
    ∀ data, (requestId, data) ∈ (w.loaders i).sentRequests → bytes = partOf (files i) data.offset
  | .answer i _ (.fileCdnRedirect _ hashes) =>
    ∀ hash ∈ hashes, hash.2 = sha256 (partOf (files i) hash.1)
  | .answer i _ (.fileHashes hashes) =>
    ∀ hash ∈ hashes, hash.2 = sha256 (partOf (files i) hash.1)
  | _ => True

variable (disk : ℕ → Bool) (aesCtr : List UInt8 → List UInt8 → ℕ → List UInt8 → List UInt8)

/-- The worlds that come from the first one by events with honest answers. -/
inductive HonestRun (w : World ι) : World ι → Prop
  | start : HonestRun w w
  | next {w' w'' : World ι} {event : Event ι} (h : HonestRun w w')
      (hhonest : w'.Honest sha256 files event)
      (hstep : w'.step disk sha256 aesCtr event = some w'') : HonestRun w w''

variable {sha256 files}

/-- A run of events that are honest whatever was asked for. -/
theorem HonestRun.of_run {w w' : World ι} {events : List (Event ι)}
    (hhonest : ∀ w : World ι, ∀ event ∈ events, w.Honest sha256 files event)
    (hrun : w.run disk sha256 aesCtr events = some w') :
    HonestRun sha256 files disk aesCtr w w' := by
  induction events using List.reverseRecOn generalizing w' with
  | nil =>
    cases hrun
    exact .start
  | append_singleton events event ih =>
    rw [run, List.foldlM_append] at hrun
    obtain ⟨w₁, hfront, hlast⟩ := Option.bind_eq_some_iff.mp hrun
    have hstep : w₁.step disk sha256 aesCtr event = some w' := by
      simpa using hlast
    exact (ih (fun w e he => hhonest w e (List.mem_append_left _ he)) hfront).next
      (hhonest w₁ event (by simp)) hstep

omit [DecidableEq ι] in
theorem Honest.trusted {w : World ι} {event : Event ι} (h : w.Honest sha256 files event)
    (hcollision : ∀ i offset buffer, sha256 buffer = sha256 (partOf (files i) offset) →
      buffer = partOf (files i) offset) :
    w.Trusted (fun i => fileTrust (files i) (hcollision i)) event := by
  cases event with
  | answer i requestId answer => cases answer <;> exact h
  | _ => trivial

/-- A loader that finishes without being cancelled has the bytes of its file, in every run in which
the data centers are honest, whatever the CDNs answer and in whatever order things happen. -/
theorem run_assembled [Fintype ι] {w w' : World ι} (hfresh : w.Fresh)
    (hsize : ∀ i, (w.loaders i).size = 0 ∨ (w.loaders i).size = (files i).length)
    (hcollision : ∀ i offset buffer, sha256 buffer = sha256 (partOf (files i) offset) →
      buffer = partOf (files i) offset)
    (hrun : HonestRun sha256 files disk aesCtr w w') (i : ι)
    (hfinished : (w'.loaders i).finished = true) (hcancelled : (w'.loaders i).cancelled = false) :
    (w'.loaders i).stored = files i := by
  have hgoes : Goes (fun i => fileTrust (files i) (hcollision i)) w w' := by
    clear hfinished hcancelled
    induction hrun with
    | start => exact .refl hfresh.invariant
    | @next w' w'' event hrun hhonest hstep ih =>
      have hkept : ¬w'.Dropped event := by
        intro hdropped
        rw [step_dropped disk aesCtr hdropped] at hstep
        cases hstep
      obtain ⟨w₁, hstep₁, hgoes⟩ := step_goes disk aesCtr ih.invariant
        (hhonest.trusted hcollision) hkept
      obtain rfl : w₁ = w'' := Option.some.inj (hstep₁.symm.trans hstep)
      exact ih.trans hgoes
  exact (((hfresh.loaders i).right (hsize i)).works (hgoes.works i)).finished hfinished hcancelled

theorem run_assembled_oneFromCdn : ∃ w' : World Unit,
    HonestRun id (fun _ => [1, 2, 3]) (fun _ => true) (fun _ _ _ bytes => bytes) oneLoader w' ∧
      (w'.loaders ()).stored = [1, 2, 3] := by
  obtain ⟨w', hrun, hfinished, hcancelled, -⟩ := oneFromCdn_run
  have hhonest : HonestRun id (fun _ => [1, 2, 3]) (fun _ => true) (fun _ _ _ bytes => bytes)
      oneLoader w' := by
    refine .of_run _ _ (fun w event hevent => ?_) hrun
    · simp only [oneFromCdn, List.mem_cons, List.not_mem_nil, or_false] at hevent
      rcases hevent with rfl | rfl | rfl | rfl
      · trivial
      · exact fun hash hhash => absurd hhash List.not_mem_nil
      · trivial
      · intro hash hhash
        rw [List.mem_singleton.mp hhash]
        decide
  exact ⟨w', hhonest, run_assembled _ _ oneLoader_fresh (fun _ => .inl rfl)
    (fun _ _ _ heq => heq) hhonest () hfinished hcancelled⟩

end World

end Bettergram.Storage.FileDownload
