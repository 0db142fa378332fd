import Bettergram.Storage.LocalFile

/-! # What a local file holds

A descriptor whose device takes every write leaves the complete file; one that
loses a part of some write leaves fewer bytes. The signature that was fed in
pieces is the one the reader computes in one go.
-/

namespace Bettergram.Storage.Local

open Foundation Core FileWriteDescriptor

variable {transform : Compression} {device : Device}

def arrayBytes (data : QByteArray) : List UInt8 := lengthBytes data ++ data.bytes

/-- The bytes that `stream <<` makes of the arrays. -/
def streamBytes (arrays : List QByteArray) : List UInt8 := arrays.flatMap arrayBytes

/-- The writes of one `stream <<`. -/
def arrayCalls (data : QByteArray) : List (List UInt8) :=
  if data.bytes = [] then [lengthBytes data] else [lengthBytes data, data.bytes]

variable (transform)

def fedMd5 (arrays : List QByteArray) : HashMd5 :=
  arrays.foldl (fun md5 data => (md5.feed transform (lengthBytes data)).feed transform data.bytes)
    HashMd5.init

def signature (arrays : List QByteArray) : List UInt8 :=
  ((((fedMd5 transform arrays).feed transform
    (wordBytes (Int32.ofNat (streamBytes arrays).length))).feed transform
      (wordBytes appVersion)).feed transform tdfMagic).result transform

def writeCalls (arrays : List QByteArray) : List (List UInt8) :=
  [tdfMagic, wordBytes appVersion] ++ arrays.flatMap arrayCalls ++ [signature transform arrays]

def completeFile (arrays : List QByteArray) : List UInt8 :=
  tdfMagic ++ wordBytes appVersion ++ streamBytes arrays ++ signature transform arrays

variable {transform}

@[simp] theorem length_lengthBytes (data : QByteArray) : (lengthBytes data).length = 4 := by
  simp [lengthBytes]

theorem length_arrayBytes (data : QByteArray) :
    (arrayBytes data).length = 4 + data.bytes.length := by
  simp [arrayBytes]

theorem streamBytes_append (arrays : List QByteArray) (data : QByteArray) :
    streamBytes (arrays ++ [data]) = streamBytes arrays ++ arrayBytes data := by
  simp [streamBytes]

theorem flatten_arrayCalls (data : QByteArray) : (arrayCalls data).flatten = arrayBytes data := by
  by_cases hempty : data.bytes = []
  · simp [arrayCalls, arrayBytes, hempty]
  · simp [arrayCalls, arrayBytes, hempty]

theorem flatten_writeCalls (arrays : List QByteArray) :
    (writeCalls transform arrays).flatten = completeFile transform arrays := by
  have harrays : (arrays.flatMap arrayCalls).flatten = streamBytes arrays := by
    induction arrays with
    | nil => rfl
    | cons data arrays ih =>
      rw [List.flatMap_cons, List.flatten_append, flatten_arrayCalls, ih]
      rfl
  simp [writeCalls, completeFile, harrays]

@[simp] theorem length_signature (arrays : List QByteArray) :
    (signature transform arrays).length = 16 := HashMd5.length_result _

theorem length_completeFile (arrays : List QByteArray) :
    (completeFile transform arrays).length = (streamBytes arrays).length + 24 := by
  simp only [completeFile, List.length_append, length_signature, wordBytes, length_leBytes]
  simp only [tdfMagic, List.length_cons, List.length_nil]
  omega

/-! ### Writes on a device -/

/-- The device takes every one of these writes whole. -/
def Takes (device : Device) (calls : List (List UInt8)) : Prop :=
  ∀ i < calls.length, taken (device i) (calls.getD i []) = calls.getD i []

instance (device : Device) (calls : List (List UInt8)) : Decidable (Takes device calls) :=
  inferInstanceAs (Decidable (∀ i < calls.length, _ = _))

theorem length_taken_le (limit : Option ℕ) (bytes : List UInt8) :
    (taken limit bytes).length ≤ bytes.length := by
  cases limit with
  | none => exact le_rfl
  | some count => exact List.length_take_le' _ _

theorem taken_eq_iff (limit : Option ℕ) (bytes : List UInt8) :
    taken limit bytes = bytes ↔ (taken limit bytes).length = bytes.length := by
  cases limit with
  | none => simp [taken]
  | some count =>
    refine ⟨fun h => congrArg List.length h, fun h => List.take_of_length_le ?_⟩
    rw [taken, List.length_take] at h
    omega

theorem takes_append (calls : List (List UInt8)) (bytes : List UInt8) :
    Takes device (calls ++ [bytes]) ↔
      Takes device calls ∧ taken (device calls.length) bytes = bytes := by
  have hbelow : ∀ i < calls.length, (calls ++ [bytes]).getD i [] = calls.getD i [] := by
    intro i hi
    rw [List.getD_eq_getElem?_getD, List.getElem?_append_left hi, List.getD_eq_getElem?_getD]
  have hlast : (calls ++ [bytes]).getD calls.length [] = bytes := by
    simp
  constructor
  · intro htakes
    refine ⟨fun i hi => ?_, ?_⟩
    · have := htakes i (by rw [List.length_append]; omega)
      rwa [hbelow i hi] at this
    · have := htakes calls.length (by simp)
      rwa [hlast] at this
  · rintro ⟨htakes, hbytes⟩ i hi
    rw [List.length_append, List.length_singleton] at hi
    obtain hlt | rfl := Nat.lt_succ_iff_lt_or_eq.mp hi
    · rw [hbelow i hlt]
      exact htakes i hlt
    · rw [hlast]
      exact hbytes

theorem takes_none (calls : List (List UInt8)) : Takes (fun _ => none) calls := fun _ _ => rfl

/-- All of these writes arrived, or the file has become shorter than they are. -/
def Sent (device : Device) (d : FileWriteDescriptor) (calls : List (List UInt8)) : Prop :=
  (Takes device calls ∧ d.file = calls.flatten ∧ d.calls = calls.length ∧ d.streamOk = true) ∨
    (¬ Takes device calls ∧ d.file.length < calls.flatten.length)

theorem Sent.write {d : FileWriteDescriptor} {calls : List (List UInt8)}
    (hsent : Sent device d calls) (bytes : List UInt8) :
    Sent device (d.write device bytes) (calls ++ [bytes]) := by
  have hle := length_taken_le (device d.calls) bytes
  obtain ⟨htakes, hfile, hcalls, hok⟩ | ⟨htakes, hshort⟩ := hsent
  · by_cases hbytes : taken (device calls.length) bytes = bytes
    · left
      refine ⟨(takes_append _ _).mpr ⟨htakes, hbytes⟩, ?_, ?_, hok⟩
      · simp [FileWriteDescriptor.write, hfile, hcalls, hbytes]
      · simp [FileWriteDescriptor.write, hcalls]
    · right
      refine ⟨fun h => hbytes ((takes_append _ _).mp h).2, ?_⟩
      have hne : (taken (device d.calls) bytes).length ≠ bytes.length := by
        rwa [hcalls, Ne, ← taken_eq_iff]
      simp only [FileWriteDescriptor.write, hfile, List.length_append, List.flatten_append,
        List.flatten_singleton]
      omega
  · right
    refine ⟨fun h => htakes ((takes_append _ _).mp h).1, ?_⟩
    simp only [FileWriteDescriptor.write, List.length_append, List.flatten_append,
      List.flatten_singleton]
    omega

theorem Sent.streamWrite {d : FileWriteDescriptor} {calls : List (List UInt8)}
    (hsent : Sent device d calls) (bytes : List UInt8) :
    Sent device (d.streamWrite device bytes) (calls ++ [bytes]) := by
  have hwrite := hsent.write bytes
  unfold FileWriteDescriptor.streamWrite
  split
  · obtain ⟨htakes, hfile, hcalls, -⟩ | hshort := hwrite
    · have hbytes := ((takes_append _ _).mp htakes).2
      have hlength : d.calls = calls.length := by
        simpa [FileWriteDescriptor.write] using hcalls
      rw [← hlength, taken_eq_iff] at hbytes
      exact .inl ⟨htakes, hfile, hcalls, decide_eq_true hbytes⟩
    · exact .inr hshort
  · rename_i hbad
    obtain ⟨-, -, -, hok⟩ | ⟨htakes, hshort⟩ := hsent
    · exact absurd hok hbad
    · refine .inr ⟨fun h => htakes ((takes_append _ _).mp h).1, ?_⟩
      rw [List.flatten_append, List.length_append]
      omega

theorem Sent.streamData {d : FileWriteDescriptor} {calls : List (List UInt8)}
    (hsent : Sent device d calls) (data : QByteArray) :
    Sent device (d.streamData device data) (calls ++ arrayCalls data) := by
  cases data with
  | none => exact hsent.streamWrite _
  | some bytes =>
    have hlength := hsent.streamWrite (lengthBytes (some bytes))
    by_cases hempty : bytes = []
    · subst hempty
      exact hlength
    · have hcalls : arrayCalls (some bytes) = [lengthBytes (some bytes), bytes] := if_neg hempty
      have hboth := hlength.streamWrite bytes
      rw [List.append_assoc] at hboth
      rw [hcalls, FileWriteDescriptor.streamData, if_neg (by simpa using hempty)]
      exact hboth

/-! ### The whole descriptor -/

@[simp] theorem streamData_isOpen (device : Device) (d : FileWriteDescriptor) (data : QByteArray) :
    (d.streamData device data).isOpen = d.isOpen ∧ (d.streamData device data).name = d.name ∧
      (d.streamData device data).toDelete = d.toDelete ∧
      (d.streamData device data).md5 = d.md5 ∧
      (d.streamData device data).dataSize = d.dataSize := by
  have hwrite : ∀ (d : FileWriteDescriptor) bytes,
      (d.streamWrite device bytes).isOpen = d.isOpen ∧
        (d.streamWrite device bytes).name = d.name ∧
        (d.streamWrite device bytes).toDelete = d.toDelete ∧
        (d.streamWrite device bytes).md5 = d.md5 ∧
        (d.streamWrite device bytes).dataSize = d.dataSize := by
    intro d bytes
    unfold FileWriteDescriptor.streamWrite
    split <;> exact ⟨rfl, rfl, rfl, rfl, rfl⟩
  cases data with
  | none => exact hwrite _ _
  | some bytes =>
    unfold FileWriteDescriptor.streamData
    dsimp only
    split
    · exact hwrite _ _
    · simpa only [hwrite] using hwrite
        (d.streamWrite device (DataStream.writeInt32 (Int32.ofNat bytes.length))) bytes

/-- What a descriptor that is open holds once the arrays are written. -/
structure Written (transform : Compression) (device : Device) (safe : Bool) (disk : Disk)
    (d : FileWriteDescriptor)
    (arrays : List QByteArray) : Prop where
  isOpen : d.isOpen = true
  name : d.name = (writeOrder safe disk).1
  toDelete : d.toDelete = (writeOrder safe disk).2
  md5 : d.md5 = fedMd5 transform arrays
  dataSize : d.dataSize = Int32.ofNat (streamBytes arrays).length
  sent : Sent device d ([tdfMagic, wordBytes appVersion] ++ arrays.flatMap arrayCalls)

theorem written_init (safe : Bool) (disk : Disk) :
    Written transform device safe disk (init device safe true disk) [] := by
  have hnil : ∀ d : FileWriteDescriptor, d.file = [] → d.calls = 0 → d.streamOk = true →
      Sent device d [] := fun d hfile hcalls hok =>
    .inl ⟨fun i hi => absurd hi (Nat.not_lt_zero i), hfile, hcalls, hok⟩
  exact ⟨rfl, rfl, rfl, rfl, rfl, ((hnil _ rfl rfl rfl).write tdfMagic).write _⟩

theorem Written.writeData {safe : Bool} {disk : Disk} {d : FileWriteDescriptor}
    {arrays : List QByteArray}
    (hwritten : Written transform device safe disk d arrays) (data : QByteArray) :
    Written transform device safe disk (d.writeData transform device data)
      (arrays ++ [data]) := by
  obtain ⟨hopen, hname, hdelete, hmd5, hsize⟩ := streamData_isOpen device d data
  have hsent := hwritten.sent.streamData data
  rw [List.append_assoc] at hsent
  unfold FileWriteDescriptor.writeData
  rw [if_pos hwritten.isOpen]
  refine ⟨hopen.trans hwritten.isOpen, hname.trans hwritten.name,
    hdelete.trans hwritten.toDelete, ?_, ?_, ?_⟩
  · simp only [hmd5, hwritten.md5, fedMd5, List.foldl_append, List.foldl_cons, List.foldl_nil]
  · dsimp only
    rw [hsize, hwritten.dataSize, streamBytes_append, List.length_append, length_arrayBytes,
      ← Int32.ofNat_add]
  · rw [List.flatMap_append, List.flatMap_singleton]
    exact hsent

theorem written_foldl (transform : Compression) (device : Device) (safe : Bool) (disk : Disk)
    (arrays : List QByteArray) :
    Written transform device safe disk
      (arrays.foldl (FileWriteDescriptor.writeData transform device)
        (init device safe true disk)) arrays := by
  have hfold : ∀ (rest : List QByteArray) d done,
      Written transform device safe disk d done →
      Written transform device safe disk
        (rest.foldl (FileWriteDescriptor.writeData transform device) d) (done ++ rest) := by
    intro rest
    induction rest with
    | nil =>
      intro d done hwritten
      simpa using hwritten
    | cons data rest ih =>
      intro d done hwritten
      have hnext := ih _ _ (hwritten.writeData data)
      rwa [List.append_assoc] at hnext
  exact hfold arrays _ [] (written_init safe disk)

/-- A descriptor that was opened: its order of the two names, and what arrived. -/
theorem ofArrays_spec (transform : Compression) (device : Device) (safe : Bool) (disk : Disk)
    (arrays : List QByteArray) :
    (ofArrays transform device safe true disk arrays).isOpen = true ∧
      (ofArrays transform device safe true disk arrays).name = (writeOrder safe disk).1 ∧
      (ofArrays transform device safe true disk arrays).toDelete = (writeOrder safe disk).2 ∧
      Sent device (ofArrays transform device safe true disk arrays)
        (writeCalls transform arrays) := by
  have hwritten := written_foldl transform device safe disk arrays
  have hsent := hwritten.sent.write (signature transform arrays)
  rw [ofArrays, sign, if_pos hwritten.isOpen]
  dsimp only
  rw [hwritten.md5, hwritten.dataSize]
  exact ⟨hwritten.isOpen, hwritten.name, hwritten.toDelete, hsent⟩

/-- The file got all of its bytes just when the device took every write whole. -/
theorem file_eq_completeFile_iff (safe : Bool) (disk : Disk) (arrays : List QByteArray) :
    (ofArrays transform device safe true disk arrays).file = completeFile transform arrays ↔
      Takes device (writeCalls transform arrays) := by
  obtain ⟨-, -, -, hsent⟩ :=
    ofArrays_spec transform device safe disk arrays
  rw [← flatten_writeCalls]
  obtain ⟨htakes, hfile, -⟩ | ⟨htakes, hshort⟩ := hsent
  · exact iff_of_true hfile htakes
  · exact iff_of_false (fun h => absurd hshort (by rw [h]; exact lt_irrefl _)) htakes

end Bettergram.Storage.Local
