import Bettergram.Mtproto.DedicatedLoader

/-! # Files are loaded in order

Whatever the order of the answers and of the delayed calls, the file grows by the next part until
it is whole. The offset of the next request is a 32-bit number, and has to stay one.
-/

namespace Bettergram.Mtproto.DedicatedLoader

variable {device : Device} {file : List UInt8} {first n : ℕ} {s t : Loader}

/-- Parts up to number `n` are written, and the requests after them are in the queue. -/
structure Loading (file : List UInt8) (first n : ℕ) (s : Loader) : Prop where
  written : Written file n s
  queue : Queue file n s.requests
  front : ∀ request ∈ s.requests.head?, request.bytes = []
  offset : s.offset = toInt32 (place (n + s.requests.length))
  near : (n + s.requests.length) * kChunkSize < file.length + kChunkSize
  begun : first ≤ n
  sent : s.sent = (List.range (n + s.requests.length - first)).map fun i => place (first + i)
  inFlight : s.inFlight = unanswered s.requests

/-- A part is asked for as long as one is missing. -/
def Waiting (file : List UInt8) (n : ℕ) (s : Loader) : Prop :=
  n * kChunkSize < file.length → s.requests ≠ []

theorem Loading.length_sent (h : Loading file first n s) :
    s.sent.length = n + s.requests.length - first := by
  rw [h.sent, List.length_map, List.length_range]

theorem Loading.sent_le (h : Loading file first n s) : s.sent.length ≤ file.length := by
  have hnear := h.near
  rw [h.length_sent]
  unfold kChunkSize at hnear
  omega

/-! ## Requests -/

/-- The loader after one more request. -/
def withRequest (s : Loader) : Loader :=
  { s with
    requests := s.requests ++ [{ offset := s.offset }]
    sent := s.sent ++ [s.offset]
    inFlight := s.inFlight ++ [s.offset]
    offset := toInt32 (s.offset + kChunkSize) }

theorem sendRequest_cases (s : Loader) (size : ℤ) :
    (kRequestsCount ≤ s.requests.length ∨ size ≤ s.offset) ∧ s.sendRequest size = s ∨
      (s.requests.length < kRequestsCount ∧ s.offset < size) ∧
        ∃ d, d ≤ 1 ∧ (s.requests = [] → d = 1) ∧
          s.sendRequest size = { withRequest s with delayed := s.delayed + d } := by
  unfold Loader.sendRequest
  split
  · rename_i h
    exact .inl ⟨h, rfl⟩
  · rename_i h
    rw [not_or, Nat.not_le, Int.not_le] at h
    refine .inr ⟨h, ?_⟩
    simp only
    split
    · exact ⟨1, Nat.le_refl 1, fun _ => rfl, rfl⟩
    · rename_i hfull
      refine ⟨0, Nat.zero_le 1, ?_, rfl⟩
      intro hnil
      simp [hnil, kRequestsCount] at hfull

theorem Loading.withRequest (h : Loading file first n s) (hoffset : s.offset = place (n + s.requests.length))
    (hlt : (n + s.requests.length) * kChunkSize < file.length) (d : ℕ) :
    Loading file first n { withRequest s with delayed := d } where
  written := ⟨h.written.output, h.written.already, h.written.total, h.written.isOpen,
    h.written.ready, h.written.failed⟩
  queue := by
    have hqueue := h.queue.append hlt
    rwa [← hoffset] at hqueue
  front := by
    intro request hmem
    rcases hrequests : s.requests with _ | ⟨first, rest⟩
    · simp only [DedicatedLoader.withRequest, hrequests, List.nil_append, List.head?_cons,
        Option.mem_some_iff] at hmem
      rw [← hmem]
    · simp only [DedicatedLoader.withRequest, hrequests, List.cons_append, List.head?_cons,
        Option.mem_some_iff] at hmem
      exact h.front request (by rw [hrequests, hmem]; rfl)
  offset := by
    simp only [DedicatedLoader.withRequest, List.length_append, List.length_singleton]
    rw [hoffset, ← Nat.add_assoc, place_succ]
  near := by
    simp only [DedicatedLoader.withRequest, List.length_append, List.length_singleton]
    rw [← Nat.add_assoc, Nat.add_mul, Nat.one_mul]
    exact Nat.add_lt_add_right hlt _
  begun := h.begun
  sent := by
    have hcount : n + (s.requests.length + 1) - first = n + s.requests.length - first + 1 := by
      have := h.begun
      omega
    have hlast : first + (n + s.requests.length - first) = n + s.requests.length := by
      have := h.begun
      omega
    simp only [DedicatedLoader.withRequest, List.length_append, List.length_singleton]
    rw [hcount, List.range_succ, List.map_append, ← h.sent, List.map_singleton, hlast, hoffset]
  inFlight := by
    simp only [DedicatedLoader.withRequest]
    rw [unanswered_append, h.inFlight]

/-- What bounds the actions that are still to come. -/
def potential (file : List UInt8) (s : Loader) : ℕ :=
  3 * (file.length - s.sent.length) + s.inFlight.length + s.delayed

/-- The offset after the last part of the file is below `2 ^ 31`. -/
def Fits (file : List UInt8) : Prop := file.length ≤ 2 ^ 31 - kChunkSize

theorem Loading.offset_eq (h : Loading file first n s) (hfits : Fits file) :
    s.offset = place (n + s.requests.length) := by
  rw [h.offset, toInt32_place]
  have hnear := h.near
  unfold Fits at hfits
  unfold kChunkSize at *
  omega

theorem Loading.sendRequest (h : Loading file first n s) (hfits : Fits file) :
    Loading file first n (s.sendRequest file.length) ∧
      Waiting file n (s.sendRequest file.length) ∧
        potential file (s.sendRequest file.length) ≤ potential file s := by
  have hoffset := h.offset_eq hfits
  have hplace : s.offset < file.length ↔
      (n + s.requests.length) * kChunkSize < file.length := by
    rw [hoffset, place]
    omega
  rcases sendRequest_cases s file.length with ⟨hfull, heq⟩ | ⟨⟨-, hlt⟩, d, hd, -, heq⟩
  · rw [heq]
    refine ⟨h, ?_, Nat.le_refl _⟩
    intro hmissing hnil
    rw [hnil] at hplace
    have hoffset' := hplace.mpr hmissing
    rcases hfull with hfull | hfull
    · rw [hnil] at hfull
      exact absurd hfull (by decide)
    · omega
  · have hnext := h.withRequest hoffset (hplace.mp hlt) (s.delayed + d)
    rw [heq]
    refine ⟨hnext, fun _ => List.append_ne_nil_of_right_ne_nil _ (List.cons_ne_nil _ _), ?_⟩
    have hsent := hnext.sent_le
    simp only [DedicatedLoader.withRequest, List.length_append, List.length_singleton] at hsent
    simp only [potential, DedicatedLoader.withRequest, List.length_append, List.length_singleton]
    omega

/-! ## Steps -/

theorem Loading.of_front (h : Loading file first n s) {requests : List Request}
    (hlength : requests.length = s.requests.length)
    (hfront : Front file n requests { s with inFlight := unanswered requests } t) :
    ∃ m, Loading file first m t ∧ m + t.requests.length = n + s.requests.length := by
  obtain ⟨k, hk, hdrop, hwritten, hqueue⟩ := hfront.written
  have hcount : n + k + t.requests.length = n + s.requests.length := by
    rw [hdrop, List.length_drop]
    omega
  refine ⟨n + k, ⟨hwritten, hqueue, hfront.front, ?_, ?_, h.begun.trans (Nat.le_add_right n k),
    ?_, ?_⟩, hcount⟩
  · rw [hcount, ← h.offset]
    exact hfront.frame.offset
  · rw [hcount]
    exact h.near
  · rw [hcount, ← h.sent]
    exact hfront.frame.sent
  · rw [hfront.unanswered]
    exact hfront.frame.inFlight

/-- What an answer has done before the next request is sent. -/
structure Answered (file : List UInt8) (first n m : ℕ) (offset : ℤ) (s t : Loader) : Prop where
  loading : Loading file first m t
  places : m + t.requests.length = n + s.requests.length
  inFlight : t.inFlight = s.inFlight.erase offset
  sent : t.sent = s.sent
  delayed : t.delayed = s.delayed

/-- An answer is taken, whichever of the requests it is for. -/
theorem Loading.answered (h : Loading file first n s) (hdevice : device.Writes)
    (hsize : file.length < 2 ^ 31) {offset : ℤ} (hmem : offset ∈ s.inFlight) :
    ∃ m t, step device file s (.answer offset) = some (t.sendRequest file.length) ∧
      Answered file first n m offset s t := by
  have hunanswered : offset ∈ unanswered s.requests := by rwa [← h.inFlight]
  obtain ⟨requests, hset, hqueue, herase, hlength⟩ := h.queue.setBytes hunanswered
  have hrequests : s.requests ≠ [] := by
    intro hnil
    rw [hnil] at hunanswered
    cases hunanswered
  have hbytes : part file offset ≠ [] := by
    obtain ⟨i, -, hi, rfl⟩ := h.queue.le_of_mem hunanswered
    exact part_ne_nil hi
  have hfront := writeFront_front (s := { s with inFlight := unanswered requests }) hdevice hsize
    ⟨h.written.output, h.written.already, h.written.total, h.written.isOpen, h.written.ready,
      h.written.failed⟩ hqueue
  obtain ⟨m, hloading, hplaces⟩ := h.of_front hlength hfront
  refine ⟨m, _, ?_, hloading, hplaces, ?_, hfront.frame.sent, hfront.frame.delayed⟩
  · rw [step, if_pos hmem, h.inFlight, ← herase, Loader.gotPart, if_neg hrequests]
    simp only [if_neg hbytes, hset, Option.map_some]
  · rw [h.inFlight, ← herase]
    exact hfront.frame.inFlight

theorem Loading.answer (h : Loading file first n s) (hdevice : device.Writes) (hfits : Fits file)
    {offset : ℤ} (hmem : offset ∈ s.inFlight) :
    ∃ m t, step device file s (.answer offset) = some t ∧ Loading file first m t ∧
      Waiting file m t ∧ potential file t < potential file s := by
  have hsize : file.length < 2 ^ 31 := by
    unfold Fits kChunkSize at hfits
    omega
  obtain ⟨m, t, hstep, hanswered⟩ := h.answered hdevice hsize hmem
  obtain ⟨hnext, hwaiting, hpotential⟩ := hanswered.loading.sendRequest hfits
  refine ⟨m, _, hstep, hnext, hwaiting, Nat.lt_of_le_of_lt hpotential ?_⟩
  have hfewer := List.length_erase_add_one hmem
  unfold potential
  rw [hanswered.sent, hanswered.inFlight, hanswered.delayed]
  omega

theorem Loading.delayed (h : Loading file first n s) (device : Device) (hfits : Fits file)
    (hpos : 0 < s.delayed) :
    ∃ t, step device file s .delayed = some t ∧ Loading file first n t ∧ Waiting file n t ∧
      potential file t < potential file s := by
  have hsame : Loading file first n { s with delayed := s.delayed - 1 } :=
    ⟨⟨h.written.output, h.written.already, h.written.total, h.written.isOpen, h.written.ready,
      h.written.failed⟩, h.queue, h.front, h.offset, h.near, h.begun, h.sent, h.inFlight⟩
  obtain ⟨hnext, hwaiting, hpotential⟩ := hsame.sendRequest hfits
  refine ⟨_, if_pos hpos, hnext, hwaiting, Nat.lt_of_le_of_lt hpotential ?_⟩
  simp only [potential]
  omega

theorem Loading.step (h : Loading file first n s) (hdevice : device.Writes) (hfits : Fits file)
    {action : Action} (hstep : step device file s action = some t) :
    ∃ m, Loading file first m t ∧ Waiting file m t ∧ potential file t < potential file s := by
  cases action with
  | answer offset =>
    by_cases hmem : offset ∈ s.inFlight
    · obtain ⟨m, t', hstep', hloading⟩ := h.answer hdevice hfits hmem
      obtain rfl := Option.some.inj (hstep.symm.trans hstep')
      exact ⟨m, hloading⟩
    · rw [DedicatedLoader.step, if_neg hmem] at hstep
      cases hstep
  | delayed =>
    by_cases hpos : 0 < s.delayed
    · obtain ⟨t', hstep', hloading⟩ := h.delayed device hfits hpos
      obtain rfl := Option.some.inj (hstep.symm.trans hstep')
      exact ⟨n, hloading⟩
    · rw [DedicatedLoader.step, if_neg hpos] at hstep
      cases hstep

theorem Loading.run (h : Loading file first n s) (hwaiting : Waiting file n s)
    (hdevice : device.Writes) (hfits : Fits file) {actions : List Action}
    (hrun : actions.foldlM (DedicatedLoader.step device file) s = some t) :
    (∃ m, Loading file first m t ∧ Waiting file m t) ∧
      actions.length + potential file t ≤ potential file s := by
  induction actions generalizing n s with
  | nil =>
    obtain rfl := Option.some.inj hrun
    exact ⟨⟨n, h, hwaiting⟩, by simp⟩
  | cons action actions ih =>
    rw [List.foldlM_cons] at hrun
    obtain ⟨r, hstep, hrest⟩ := Option.bind_eq_some_iff.mp hrun
    obtain ⟨m, hloading, hwaiting', hless⟩ := h.step hdevice hfits hstep
    obtain ⟨hright, hlength⟩ := ih hloading hwaiting' hrest
    refine ⟨hright, ?_⟩
    rw [List.length_cons]
    omega

/-! ## The start -/

structure Device.Works (device : Device) : Prop where
  removes : device.removes = true
  resizes : device.resizes = true
  opens : device.opens = true
  writes : device.Writes
  mtpValid : device.mtpValid = true

/-- The disk has whole parts from the beginning of the file, or nothing. -/
def AlignedPrefix (file : List UInt8) (disk : Option (List UInt8)) : Prop :=
  ∃ k, k * kChunkSize ≤ file.length ∧ disk.getD [] = file.take (k * kChunkSize)

/-- The number of parts that are kept: a file of more than `kMaxFileSize` is removed. -/
def keptParts (disk : Option (List UInt8)) : ℕ :=
  if kMaxFileSize < (disk.getD []).length then 0 else (disk.getD []).length / kChunkSize

theorem AlignedPrefix.kept {disk : Option (List UInt8)} (h : AlignedPrefix file disk) :
    keptParts disk * kChunkSize ≤ file.length ∧ keptParts disk * kChunkSize ≤ kMaxFileSize := by
  obtain ⟨k, hk, hdisk⟩ := h
  have hlength : (disk.getD []).length = k * kChunkSize := by
    rw [hdisk, List.length_take, Nat.min_eq_left hk]
  unfold keptParts
  rw [hlength]
  split
  · simp
  · rename_i hmax
    rw [Nat.mul_div_cancel k (by decide)]
    exact ⟨hk, Nat.le_of_not_lt hmax⟩

theorem validateOutput_kept (hdevice : device.Works) {disk : Option (List UInt8)}
    (hdisk : AlignedPrefix file disk) :
    ∃ output, Loader.validateOutput device { output := disk } =
        some { output := output, alreadySize := place (keptParts disk) } ∧
      output.getD [] = file.take (keptParts disk * kChunkSize) := by
  obtain ⟨k, hk, hbytes⟩ := hdisk
  cases disk with
  | none => exact ⟨none, by simp [Loader.validateOutput, keptParts, place], by simp [keptParts]⟩
  | some bytes =>
    have hlength : bytes.length = k * kChunkSize := by
      rw [Option.getD_some] at hbytes
      rw [hbytes, List.length_take, Nat.min_eq_left hk]
    have hmod : k * kChunkSize % kChunkSize = 0 := Nat.mul_mod_left k kChunkSize
    have hdiv : k * kChunkSize / kChunkSize = k := Nat.mul_div_cancel k (by decide)
    rw [Option.getD_some] at hbytes
    rw [Loader.validateOutput, keptParts, Option.getD_some, hlength, hdiv]
    dsimp only
    rw [hlength, hmod, if_neg (not_not.mpr rfl), if_pos hdevice.removes, if_pos hdevice.resizes]
    by_cases hmax : kMaxFileSize < k * kChunkSize
    · rw [if_pos hmax, if_pos (.inr hmax)]
      exact ⟨none, by simp [Loader.remove, hdevice.removes, place], by simp⟩
    rw [if_neg hmax]
    by_cases hshort : k * kChunkSize < kChunkSize
    · have hzero : k = 0 := by
        unfold kChunkSize at hshort
        omega
      rw [if_pos (.inl hshort), hzero]
      exact ⟨none, by simp [Loader.remove, hdevice.removes, place], by simp⟩
    · rw [if_neg (not_or.mpr ⟨hshort, hmax⟩)]
      refine ⟨some (bytes.take (k * kChunkSize)), by rw [place], ?_⟩
      rw [Option.getD_some, hbytes, List.take_take, Nat.min_self]

/-- The loader that has opened the file. -/
def resumed (file : List UInt8) (n : ℕ) : Loader where
  output := some (file.take (n * kChunkSize))
  isOpen := true
  alreadySize := place n
  offset := place n

/-- What is on the disk is counted with an empty block. -/
theorem writeChunk_resumed (device : Device) (hpos : 0 < file.length)
    (hlength : n * kChunkSize ≤ file.length) (hmax : n * kChunkSize ≤ kMaxFileSize) :
    Written file n ((resumed file n).writeChunk device [] file.length) := by
  have hint : toInt32 (place n + ([] : List UInt8).length) = place n := by
    exact (congrArg toInt32 (Int.add_zero _)).trans
      (toInt32_place (Nat.lt_of_le_of_lt hmax (by decide)))
  have halready : place n = ((file.take (n * kChunkSize)).length : ℤ) := by
    rw [List.length_take, Nat.min_eq_left hlength]
    rfl
  have hwhole : (0 < (file.length : ℤ) ∧ (file.length : ℤ) ≤ place n) ↔
      file.length ≤ n * kChunkSize := by
    unfold place
    omega
  unfold Loader.writeChunk resumed
  dsimp only
  rw [if_neg (fun hnot => Nat.lt_irrefl 0 hnot.1)]
  simp only [hint, if_true, hwhole, Option.map_some, List.append_nil]
  split
  · rename_i hlast
    exact ⟨rfl, halready, rfl, (decide_eq_false (Nat.not_lt.mpr hlast)).symm,
      by simp [Loader.fire, hlast], by simp [Loader.fire]⟩
  · rename_i hlast
    exact ⟨rfl, halready, rfl, (decide_eq_true (Nat.lt_of_not_le hlast)).symm,
      by simp [Loader.fire, hlast], by simp [Loader.fire]⟩

/-- Before the first request the loader has the parts that were kept. -/
theorem start_loading (hdevice : device.Works) (hpos : 0 < file.length)
    {disk : Option (List UInt8)} (hdisk : AlignedPrefix file disk) :
    ∃ s, Loader.start device file.length { output := disk } = s.sendRequest file.length ∧
      Loading file (keptParts disk) (keptParts disk) s ∧ s.requests = [] := by
  obtain ⟨output, hvalid, houtput⟩ := validateOutput_kept hdevice hdisk
  obtain ⟨hlength, hmax⟩ := hdisk.kept
  rw [Loader.start, hvalid]
  simp only [hdevice.opens, if_true, Loader.startLoading, hdevice.mtpValid, houtput]
  generalize keptParts disk = first at hlength hmax ⊢
  have hwritten := writeChunk_resumed device hpos hlength hmax
  have hframe := (writeChunk_frame device (resumed file first) [] file.length).1
  have hrequests : ((resumed file first).writeChunk device [] file.length).requests = [] :=
    (writeChunk_frame device _ [] _).2
  refine ⟨(resumed file first).writeChunk device [] file.length, rfl, ⟨hwritten, ?_, ?_, ?_, ?_, Nat.le_refl first, ?_, ?_⟩, hrequests⟩
  · rw [hrequests]
    trivial
  · rw [hrequests]
    intro request hmem
    cases hmem
  · rw [hframe.offset, hrequests]
    exact (toInt32_place (n := first) (Nat.lt_of_le_of_lt hmax (by decide))).symm
  · rw [hrequests]
    exact Nat.lt_of_le_of_lt hlength (Nat.lt_add_of_pos_right (by decide))
  · rw [hframe.sent, hrequests, List.length_nil, Nat.add_zero, Nat.sub_self]
    rfl
  · rw [hframe.inFlight, hrequests]
    rfl

end Bettergram.Mtproto.DedicatedLoader
