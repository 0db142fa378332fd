import Bettergram.Mtproto.DedicatedLoaderRuns
import Mathlib.Data.List.TakeDrop

/-! # Loading a file to its end

A file is loaded in order, and ready once, if the offset behind its last part is still an `int`.
A larger file has a run in which a part before the file is asked for.
-/

namespace Bettergram.Mtproto.DedicatedLoader

variable {device : Device} {file : List UInt8} {first n : ℕ} {s t : Loader}
  {disk : Option (List UInt8)}

/-- The output is a beginning of the file, each part of the rest is asked for once, the file is
ready exactly when the output is all of it, and every answer is taken without a failed assertion. -/
structure Right (device : Device) (file : List UInt8) (first : ℕ) (s : Loader) : Prop where
  output : ∃ n, first ≤ n ∧ s.output = some (file.take (n * kChunkSize))
  sent : (∃ k, s.sent = (List.range k).map fun i => place (first + i)) ∧
    ∀ offset ∈ s.sent, offset < file.length
  ready : s.events.count .ready = if s.output = some file then 1 else 0
  failed : Event.failed ∉ s.events
  answers : ∀ offset ∈ s.inFlight, (step device file s (.answer offset)).isSome
  unfinished : s.output ≠ some file → s.inFlight ≠ []

/-- In every run all is right, and no run goes on for ever. -/
structure LoadsInOrder (device : Device) (file : List UInt8) (disk : Option (List UInt8)) :
    Prop where
  right : ∀ actions s, run device file disk actions = some s →
    Right device file (keptParts disk) s
  ends : ∃ bound, ∀ actions s, run device file disk actions = some s → actions.length ≤ bound

theorem Loading.output_eq_iff (h : Loading file first n s) :
    s.output = some file ↔ file.length ≤ n * kChunkSize := by
  rw [h.written.output, Option.some.injEq, List.take_eq_self_iff]

theorem Loading.lt_of_mem_sent (h : Loading file first n s) {offset : ℤ}
    (hmem : offset ∈ s.sent) : offset < file.length := by
  rw [h.sent] at hmem
  obtain ⟨i, hi, rfl⟩ := List.mem_map.mp hmem
  have hlast := List.mem_range.mp hi
  have hnear := h.near
  unfold place
  unfold kChunkSize at *
  omega

/-- The first request of the queue has no answer. -/
theorem Loading.inFlight_ne_nil (h : Loading file first n s) (hrequests : s.requests ≠ []) :
    s.inFlight ≠ [] := by
  obtain ⟨request, requests, heq⟩ := List.exists_cons_of_ne_nil hrequests
  rw [h.inFlight, heq, unanswered_cons, if_pos (h.front request (by rw [heq]; rfl))]
  exact List.cons_ne_nil _ _

theorem Loading.right (h : Loading file first n s) (hwaiting : Waiting file n s)
    (hdevice : device.Writes) (hfits : Fits file) : Right device file first s where
  output := ⟨n, h.begun, h.written.output⟩
  sent := ⟨⟨_, h.sent⟩, fun _ => h.lt_of_mem_sent⟩
  ready := by
    rw [h.written.ready]
    simp only [h.output_eq_iff]
  failed := h.written.failed
  answers offset hmem := by
    obtain ⟨m, t, hstep, -⟩ := h.answer hdevice hfits hmem
    rw [hstep]
    rfl
  unfinished houtput := by
    have hmissing := mt h.output_eq_iff.mpr houtput
    exact h.inFlight_ne_nil (hwaiting (Nat.lt_of_not_le hmissing))

theorem loadsInOrder_of_fits (hdevice : device.Works) (hpos : 0 < file.length)
    (hdisk : AlignedPrefix file disk) (hfits : Fits file) : LoadsInOrder device file disk := by
  obtain ⟨s, hstart, hloading, -⟩ := start_loading hdevice hpos hdisk
  obtain ⟨hfirst, hwaiting, -⟩ := hloading.sendRequest hfits
  constructor
  · intro actions t hrun
    rw [run, hstart] at hrun
    obtain ⟨⟨m, hlast, hwaits⟩, -⟩ := hfirst.run hwaiting hdevice.writes hfits hrun
    exact hlast.right hwaits hdevice.writes hfits
  · refine ⟨potential file (s.sendRequest file.length), fun actions t hrun => ?_⟩
    rw [run, hstart] at hrun
    exact (Nat.le_add_right _ _).trans (hfirst.run hwaiting hdevice.writes hfits hrun).2

/-! ## Large files -/

/-- One request is waited for, and a delayed call may send the next one. -/
structure Single (file : List UInt8) (first n : ℕ) (s : Loader) : Prop where
  loading : Loading file first n s
  one : s.requests.length = 1
  delayed : 0 < s.delayed

theorem Loading.single (h : Loading file first n s) (hrequests : s.requests = [])
    (hsize : file.length < 2 ^ 31) (hn : n * kChunkSize < file.length) :
    Single file first n (s.sendRequest file.length) := by
  have hoffset : s.offset = place n := by
    rw [h.offset, hrequests]
    exact toInt32_place (Nat.lt_trans hn hsize)
  have hlt : s.offset < file.length := by
    rw [hoffset]
    exact Int.ofNat_lt.mpr hn
  rcases sendRequest_cases s file.length with ⟨hfull, -⟩ | ⟨-, d, hd, hone, heq⟩
  · rw [hrequests] at hfull
    rcases hfull with hfull | hfull
    · exact absurd hfull (by decide)
    · exact absurd hlt (Int.not_lt.mpr hfull)
  · rw [heq, hone hrequests]
    refine ⟨h.withRequest ?_ ?_ _, ?_, Nat.succ_pos _⟩
    · rw [hrequests]
      exact hoffset
    · rw [hrequests]
      exact hn
    · simp [DedicatedLoader.withRequest, hrequests]

/-- The answer to the only request lets the next part be asked for. -/
theorem Single.next (h : Single file first n s) (hdevice : device.Writes)
    (hsize : file.length < 2 ^ 31) (hn : (n + 1) * kChunkSize < file.length) :
    ∃ offset t, step device file s (.answer offset) = some t ∧ Single file first (n + 1) t := by
  obtain ⟨request, hrequests⟩ := List.length_eq_one_iff.mp h.one
  have hnil : request.bytes = [] := h.loading.front request (by rw [hrequests]; rfl)
  have hinFlight : s.inFlight = [request.offset] := by
    rw [h.loading.inFlight, hrequests, unanswered_cons, if_pos hnil]
    rfl
  have hmem : request.offset ∈ s.inFlight := by
    rw [hinFlight]
    exact List.mem_cons_self
  obtain ⟨m, t, hstep, hanswered⟩ := h.loading.answered hdevice hsize hmem
  have hempty : t.requests = [] := by
    by_contra hnot
    refine hanswered.loading.inFlight_ne_nil hnot ?_
    rw [hanswered.inFlight, hinFlight, List.erase_cons_head]
  have hm : m = n + 1 := by
    have hplaces := hanswered.places
    rw [hempty, h.one] at hplaces
    exact hplaces
  subst hm
  exact ⟨_, _, hstep, hanswered.loading.single hempty hsize hn⟩

theorem exists_single (hdevice : device.Works) (hpos : 0 < file.length)
    (hsize : file.length < 2 ^ 31) (hdisk : AlignedPrefix file disk) (k : ℕ)
    (hk : (keptParts disk + k) * kChunkSize < file.length) :
    ∃ actions s, run device file disk actions = some s ∧
      Single file (keptParts disk) (keptParts disk + k) s := by
  induction k with
  | zero =>
    obtain ⟨s, hstart, hloading, hrequests⟩ := start_loading hdevice hpos hdisk
    exact ⟨[], _, by rw [run, hstart]; rfl, hloading.single hrequests hsize hk⟩
  | succ k ih =>
    have hlt : (keptParts disk + k) * kChunkSize < file.length :=
      Nat.lt_of_le_of_lt (Nat.mul_le_mul_right _ (Nat.le_succ _)) hk
    obtain ⟨actions, s, hrun, hsingle⟩ := ih hlt
    obtain ⟨offset, t, hstep, hnext⟩ := hsingle.next hdevice.writes hsize hk
    refine ⟨actions ++ [.answer offset], t, ?_, hnext⟩
    rw [run, List.foldlM_append, ← run, hrun]
    simpa using hstep

/-- Behind the part that ends at `2 ^ 31` a request with a negative offset is sent. -/
theorem Single.sends_negative (h : Single file first n s) (device : Device)
    (hn : (n + 1) * kChunkSize = 2 ^ 31) :
    ∃ t, step device file s .delayed = some t ∧ -2 ^ 31 ∈ t.sent := by
  have hoffset : s.offset = -2 ^ 31 := by
    rw [h.loading.offset, h.one, place, hn]
    decide
  refine ⟨_, if_pos h.delayed, ?_⟩
  rcases sendRequest_cases { s with delayed := s.delayed - 1 } file.length with
    ⟨hfull, -⟩ | ⟨-, d, -, -, heq⟩
  · rcases hfull with hfull | hfull
    · rw [h.one] at hfull
      exact absurd hfull (by decide)
    · rw [hoffset] at hfull
      omega
  · rw [heq]
    exact List.mem_append_right _ (List.mem_singleton.mpr hoffset.symm)

theorem not_loadsInOrder (hdevice : device.Works) (hsize : file.length < 2 ^ 31)
    (hdisk : AlignedPrefix file disk) (hlarge : ¬Fits file) : ¬LoadsInOrder device file disk := by
  intro h
  have hkept := hdisk.kept.2
  unfold Fits at hlarge
  obtain ⟨k, hk⟩ : ∃ k, keptParts disk + k = 2 ^ 14 - 1 := by
    refine ⟨2 ^ 14 - 1 - keptParts disk, ?_⟩
    unfold kMaxFileSize kChunkSize at hkept
    omega
  obtain ⟨actions, s, hrun, hsingle⟩ := exists_single hdevice
    (by omega) hsize hdisk k (by
      rw [hk]
      unfold kChunkSize at *
      omega)
  obtain ⟨t, hstep, hmem⟩ := hsingle.sends_negative device (by rw [hk]; decide)
  have hright := h.right (actions ++ [.delayed]) t (by
    rw [run, List.foldlM_append, ← run, hrun]
    simpa using hstep)
  obtain ⟨⟨j, hsent⟩, -⟩ := hright.sent
  rw [hsent] at hmem
  obtain ⟨i, -, hi⟩ := List.mem_map.mp hmem
  unfold place at hi
  omega

/-- A file is loaded in order exactly when the offset behind its last part is an `int`. -/
theorem loadsInOrder_iff (hdevice : device.Works) (hpos : 0 < file.length)
    (hsize : file.length < 2 ^ 31) (hdisk : AlignedPrefix file disk) :
    LoadsInOrder device file disk ↔ file.length ≤ 2 ^ 31 - kChunkSize := by
  constructor
  · intro h
    by_contra hlarge
    exact not_loadsInOrder hdevice hsize hdisk hlarge h
  · exact loadsInOrder_of_fits hdevice hpos hdisk

/-- A disk with space, and a connection. -/
def sound : Device := ⟨true, true, true, List.length, true⟩

theorem sound_works : sound.Works := ⟨rfl, rfl, rfl, fun _ => rfl, rfl⟩

theorem loadsInOrder_iff_three : LoadsInOrder sound [1, 2, 3] none :=
  (loadsInOrder_iff sound_works (by decide) (by decide) ⟨0, by decide, rfl⟩).mpr (by decide)

/-- A file of the largest size, with nothing of it on the disk. -/
theorem large_not_in_order :
    ∃ file : List UInt8, file.length = 2 ^ 31 - 1 ∧ ¬LoadsInOrder sound file none := by
  obtain ⟨file, hlength⟩ : ∃ file : List UInt8, file.length = 2 ^ 31 - 1 :=
    ⟨.replicate (2 ^ 31 - 1) 0, List.length_replicate⟩
  refine ⟨file, hlength, not_loadsInOrder sound_works ?_ ⟨0, by simp, by simp⟩ ?_⟩
  · omega
  · unfold Fits kChunkSize
    omega

end Bettergram.Mtproto.DedicatedLoader
