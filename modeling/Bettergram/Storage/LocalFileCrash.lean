import Bettergram.Storage.LocalFileRoundTrip

/-! # Local files and crashes

One of the two files of a name holds the last content, and what the other one
holds, if it is there, is not accepted or is older. Writing replaces the other
file first, so a crash anywhere leaves the last content readable.
-/

namespace Bettergram.Storage.Local

open Foundation Core FileWriteDescriptor

/-- What can be written: the file is no larger than its `int32` size can tell. -/
abbrev Content := {arrays : List QByteArray // Fits arrays}

def Content.read (content : Content) : FileRead := ⟨appVersion, streamBytes content.1⟩

/-- Where a write is cut off: before its file is opened, when so many bytes have
reached the disk, or with the old file removed. -/
inductive Cut
  | unopened
  | received (count : ℕ)
  | removed

inductive Event
  | write (content : Content) (now : ℕ)
  | crash (content : Content) (cut : Cut) (now : ℕ)
  | read

structure State where
  disk : Disk
  clock : ℕ
  /-- The program was started again and has not called `readFile` yet. -/
  restarted : Bool

def State.start : State := ⟨.empty, 0, false⟩

variable (transform : Compression)

/-- The descriptor of a content on a device that takes everything. -/
abbrev writer (disk : Disk) (content : Content) : FileWriteDescriptor :=
  ofArrays transform (fun _ => none) true true disk content.1

def cutDisk (disk : Disk) (content : Content) (cut : Cut) (now : ℕ) : Disk :=
  let d := writer transform disk content
  match cut with
  | .unopened => disk
  | .received count => d.store disk (d.file.take count) now
  | .removed => d.finish disk now

def step (s : State) : Event → State
  | .write content now => ⟨(writer transform s.disk content).finish s.disk now, now, s.restarted⟩
  | .crash content cut now => ⟨cutDisk transform s.disk content cut now, now, true⟩
  | .read => ⟨(readFile transform true s.disk).2, s.clock, false⟩

/-- Two files that exist together have different times. -/
def Distinct (disk : Disk) : Prop :=
  ∀ c0 ∈ disk .zero, ∀ c1 ∈ disk .one, c0.modified ≠ c1.modified

/-- A restart calls `readFile` first, and times do not go back. -/
def Allowed (s : State) : Event → Prop
  | .write _ now => s.restarted = false ∧ s.clock ≤ now
  | .crash content cut now => s.restarted = false ∧ s.clock ≤ now ∧
      Distinct (cutDisk transform s.disk content cut now)
  | .read => True

def run (s : State) (events : List Event) : State := events.foldl (step transform) s

def Admissible : State → List Event → Prop
  | _, [] => True
  | s, e :: events => Allowed transform s e ∧ Admissible (step transform s e) events

/-- All the bytes of a crashed write are on the disk. -/
def AllReceived (content : Content) : Cut → Prop
  | .unopened => False
  | .received count => (completeFile transform content.1).length ≤ count
  | .removed => True

instance (content : Content) : DecidablePred (AllReceived transform content)
  | .unopened => inferInstanceAs (Decidable False)
  | .received _ => inferInstanceAs (Decidable (_ ≤ _))
  | .removed => inferInstanceAs (Decidable True)

/-- The content that is to be read after an event. -/
def keep (last : Option Content) : Event → Option Content
  | .write content _ => some content
  | .crash content cut _ => if AllReceived transform content cut then some content else last
  | .read => last

def lastContent (events : List Event) : Option Content := events.foldl (keep transform) none

/-- The signature tells the complete file from what a crash can leave of it. -/
def Tells (content : Content) : Prop :=
  ∀ count < (completeFile transform content.1).length,
    readCopy transform ((completeFile transform content.1).take count) = none

def Event.Tells : Event → Prop
  | .crash content _ _ => Local.Tells transform content
  | _ => True

variable {transform}

/-! ### Reading -/

/-- No file of the name is accepted. -/
def Rejected (transform : Compression) (disk : Disk) : Prop :=
  ∀ slot copy, disk slot = some copy → readCopy transform copy.bytes = none

/-- One file holds the content; another one is rejected or older. -/
structure Holds (transform : Compression) (disk : Disk) (content : Content)
    (slot : Slot) (modified : ℕ) : Prop where
  own : disk slot = some ⟨completeFile transform content.1, modified⟩
  other : ∀ copy, disk slot.other = some copy →
    readCopy transform copy.bytes = none ∨ copy.modified < modified

theorem Rejected.readSlot {disk : Disk} (h : Rejected transform disk) (slot : Slot) :
    readSlot transform disk slot = none := by
  rw [Local.readSlot]
  cases hcopy : disk slot with
  | none => rfl
  | some copy => exact h slot copy hcopy

theorem Rejected.readFile {disk : Disk} (h : Rejected transform disk) :
    readFile transform true disk = (none, disk) := by
  obtain ⟨first, second, horder⟩ : ∃ first second, readOrder true disk = (first, second) :=
    ⟨_, _, rfl⟩
  rw [Local.readFile, horder]
  dsimp only
  rw [h.readSlot]
  cases second with
  | none => rfl
  | some other =>
    dsimp only
    rw [h.readSlot]

theorem Holds.readSlot {disk : Disk} {content : Content} {slot : Slot} {modified : ℕ}
    (h : Holds transform disk content slot modified) :
    Local.readSlot transform disk slot = some content.read := by
  rw [Local.readSlot, h.own, Option.bind_some]
  exact readCopy_completeFile content.2

/-- Of two files the newer is tried first. -/
theorem readOrder_two {disk : Disk} {slot : Slot} {own other : Copy} (hown : disk slot = some own)
    (hother : disk slot.other = some other) :
    readOrder true disk = (slot, some slot.other) ∨
      (readOrder true disk = (slot.other, some slot) ∧ own.modified ≤ other.modified) := by
  cases slot with
  | zero =>
    rw [Slot.other] at hother
    by_cases hnewer : own.modified < other.modified
    · exact .inr ⟨by simp only [readOrder, hown, hother, hnewer, if_true, Slot.other], hnewer.le⟩
    · exact .inl (by simp only [readOrder, hown, hother, hnewer, if_true, if_false, Slot.other])
  | one =>
    rw [Slot.other] at hother
    by_cases hnewer : other.modified < own.modified
    · exact .inl (by simp only [readOrder, hown, hother, hnewer, if_true, Slot.other])
    · refine .inr ⟨?_, not_lt.mp hnewer⟩
      simp only [readOrder, hown, hother, hnewer, if_true, if_false, Slot.other]

/-- The content is read, and its file is the only one afterwards. -/
theorem Holds.readFile {disk : Disk} {content : Content} {slot : Slot} {modified : ℕ}
    (h : Holds transform disk content slot modified) :
    (readFile transform true disk).1 = some content.read ∧
      (readFile transform true disk).2 slot = disk slot ∧
      (readFile transform true disk).2 slot.other = none := by
  cases hother : disk slot.other with
  | none =>
    have honly : ∀ other, other ≠ slot → disk other = none := by
      intro other hne
      rw [Slot.eq_other hne]
      exact hother
    rw [readFile_single h.own honly]
    exact ⟨readCopy_completeFile content.2, rfl, hother⟩
  | some copy =>
    obtain horder | ⟨horder, hle⟩ := readOrder_two h.own hother
    · rw [Local.readFile, horder]
      dsimp only
      rw [h.readSlot]
      exact ⟨rfl, Function.update_of_ne slot.other_ne.symm _ _, Function.update_self _ _ _⟩
    · have hrejected : Local.readSlot transform disk slot.other = none := by
        obtain hnone | hlt := h.other copy hother
        · rw [Local.readSlot, hother]
          exact hnone
        · exact absurd hlt (not_lt.mpr hle)
      rw [Local.readFile, horder]
      dsimp only
      rw [hrejected]
      dsimp only
      rw [h.readSlot]
      exact ⟨rfl, Function.update_of_ne slot.other_ne.symm _ _, Function.update_self _ _ _⟩

/-! ### The invariant -/

/-- What the files of a reachable state hold. -/
structure Kept (transform : Compression) (s : State)
    (last : Option Content) : Prop where
  clock : ∀ slot copy, s.disk slot = some copy → copy.modified ≤ s.clock
  rejected : last = none → Rejected transform s.disk
  held : ∀ content, last = some content → ∃ slot modified,
    Holds transform s.disk content slot modified ∧
      (s.restarted = false → s.disk slot.other = none)

theorem writer_file (transform : Compression) (disk : Disk) (content : Content) :
    (writer transform disk content).file = completeFile transform content.1 :=
  (file_eq_completeFile_iff true disk content.1).mpr (takes_none _)

/-- A write that got through, the removal included. -/
theorem kept_finish (disk : Disk) (content : Content) (now : ℕ) (restarted : Bool) :
    Kept transform ⟨(writer transform disk content).finish disk now, now, restarted⟩
      (some content) := by
  obtain ⟨hown, honly⟩ :=
    finish_single transform (fun _ => none) disk content.1 now
  rw [writer_file transform disk content] at hown
  refine ⟨?_, fun h => (by cases h), ?_⟩
  · intro slot copy hcopy
    dsimp only at hcopy
    by_cases hslot : slot = (writeOrder true disk).1
    · subst hslot
      rw [hown] at hcopy
      exact (congrArg Copy.modified (Option.some.inj hcopy)).ge
    · rw [honly slot hslot] at hcopy
      cases hcopy
  · intro content' heq
    obtain rfl := Option.some.inj heq
    have hother := honly (writeOrder true disk).1.other (Slot.other_ne _)
    refine ⟨(writeOrder true disk).1, now, ⟨hown, fun copy hcopy => ?_⟩, fun _ => hother⟩
    cases hother.symm.trans hcopy

theorem store_eq (disk : Disk) (content : Content) (bytes : List UInt8) (now : ℕ) :
    (writer transform disk content).store disk bytes now =
      Function.update disk (writeOrder true disk).1 (some ⟨bytes, now⟩) := by
  obtain ⟨hopen, hname, -⟩ :=
    ofArrays_spec transform (fun _ => none) true disk content.1
  rw [store, if_pos hopen, hname]

/-- The only file is not the one that is written. -/
theorem writeOrder_single {disk : Disk} {slot : Slot} {copy : Copy} (hown : disk slot = some copy)
    (hother : disk slot.other = none) : (writeOrder true disk).1 = slot.other := by
  cases slot with
  | zero =>
    rw [Slot.other] at hother
    simp only [writeOrder, hown, hother, if_true, Slot.other]
  | one =>
    rw [Slot.other] at hother
    simp only [writeOrder, hown, hother, if_true, Slot.other]

theorem clock_store {s : State} {last : Option Content} (hkept : Kept transform s last)
    {slot : Slot} {bytes : List UInt8} {now : ℕ} (hnow : s.clock ≤ now) :
    ∀ slot' copy, Function.update s.disk slot (some ⟨bytes, now⟩) slot' = some copy →
      copy.modified ≤ now := by
  intro slot' copy hcopy
  by_cases hslot : slot' = slot
  · subst hslot
    rw [Function.update_self] at hcopy
    exact (congrArg Copy.modified (Option.some.inj hcopy)).ge
  · rw [Function.update_of_ne hslot] at hcopy
    exact (hkept.clock slot' copy hcopy).trans hnow

/-- A crash with all the bytes on the disk and the old file still there. -/
theorem kept_received_all {s : State} {last : Option Content} (hkept : Kept transform s last)
    {content : Content} {bytes : List UInt8} {now : ℕ} (hnow : s.clock ≤ now)
    (hbytes : bytes = completeFile transform content.1)
    (hdistinct : Distinct ((writer transform s.disk content).store s.disk bytes now)) :
    Kept transform ⟨(writer transform s.disk content).store s.disk bytes now, now, true⟩
      (some content) := by
  rw [store_eq] at hdistinct ⊢
  generalize (writeOrder true s.disk).1 = slot at *
  have hown : Function.update s.disk slot (some ⟨bytes, now⟩) slot = some ⟨bytes, now⟩ :=
    Function.update_self _ _ _
  have hold : Function.update s.disk slot (some ⟨bytes, now⟩) slot.other = s.disk slot.other :=
    Function.update_of_ne slot.other_ne _ _
  refine ⟨clock_store hkept hnow, fun h => (by cases h), fun content' heq => ?_⟩
  obtain rfl := Option.some.inj heq
  refine ⟨slot, now, ⟨?_, fun copy hcopy => .inr ?_⟩, fun h => (by cases h)⟩
  · rw [← hbytes]
    exact hown
  · dsimp only at hcopy
    have hle : copy.modified ≤ now := by
      rw [hold] at hcopy
      exact (hkept.clock _ copy hcopy).trans hnow
    -- two files that exist together have different times
    have hne : copy.modified ≠ now := by
      cases slot with
      | zero => exact (hdistinct _ hown _ hcopy).symm
      | one => exact hdistinct _ hcopy _ hown
    omega

/-- A crash with a file that is not accepted: nothing that can be read is lost. -/
theorem kept_received_part {s : State} {last : Option Content} (hkept : Kept transform s last)
    (hrestarted : s.restarted = false) {content : Content} {bytes : List UInt8} {now : ℕ}
    (hnow : s.clock ≤ now) (hbytes : readCopy transform bytes = none) :
    Kept transform ⟨(writer transform s.disk content).store s.disk bytes now, now, true⟩ last := by
  rw [store_eq]
  refine ⟨clock_store hkept hnow, ?_, ?_⟩
  · intro hlast slot copy hcopy
    dsimp only at hcopy
    by_cases hslot : slot = (writeOrder true s.disk).1
    · rw [hslot, Function.update_self] at hcopy
      obtain rfl := Option.some.inj hcopy
      exact hbytes
    · rw [Function.update_of_ne hslot] at hcopy
      exact hkept.rejected hlast slot copy hcopy
  · intro content' hlast
    obtain ⟨slot, modified, hholds, hsingle⟩ := hkept.held content' hlast
    have horder := writeOrder_single hholds.own (hsingle hrestarted)
    refine ⟨slot, modified, ⟨?_, fun copy hcopy => .inl ?_⟩, fun h => (by cases h)⟩
    · dsimp only
      rw [horder, Function.update_of_ne slot.other_ne.symm]
      exact hholds.own
    · dsimp only at hcopy
      rw [horder, Function.update_self] at hcopy
      obtain rfl := Option.some.inj hcopy
      exact hbytes

theorem Kept.restart {s : State} {last : Option Content} (hkept : Kept transform s last) {now : ℕ}
    (hnow : s.clock ≤ now) : Kept transform ⟨s.disk, now, true⟩ last where
  clock slot copy hcopy := (hkept.clock slot copy hcopy).trans hnow
  rejected := hkept.rejected
  held content hlast := by
    obtain ⟨slot, modified, hholds, -⟩ := hkept.held content hlast
    exact ⟨slot, modified, hholds, fun h => (by cases h)⟩

theorem Kept.read {s : State} {last : Option Content} (hkept : Kept transform s last) :
    Kept transform (step transform s .read) last := by
  cases last with
  | none =>
    have hread := (hkept.rejected rfl).readFile
    refine ⟨?_, fun _ => ?_, fun _ h => (by cases h)⟩
    · rw [step, hread]
      exact hkept.clock
    · rw [step, hread]
      exact hkept.rejected rfl
  | some content =>
    obtain ⟨slot, modified, hholds, -⟩ := hkept.held content rfl
    obtain ⟨-, hown, hother⟩ := hholds.readFile
    refine ⟨?_, fun h => (by cases h), ?_⟩
    · intro slot' copy hcopy
      by_cases hslot : slot' = slot
      · subst hslot
        exact hkept.clock slot' copy (hown.symm.trans hcopy)
      · rw [Slot.eq_other hslot] at hcopy
        cases hother.symm.trans hcopy
    · intro content' heq
      obtain rfl := Option.some.inj heq
      refine ⟨slot, modified, ⟨hown.trans hholds.own, fun copy hcopy => ?_⟩, fun _ => hother⟩
      cases hother.symm.trans hcopy

/-- Every event keeps the invariant, with the content that is to be read after it. -/
theorem Kept.step {s : State} {last : Option Content} {e : Event}
    (hkept : Kept transform s last) (hallowed : Allowed transform s e)
    (htells : e.Tells transform) :
    Kept transform (step transform s e) (keep transform last e) := by
  cases e with
  | write content now => exact kept_finish s.disk content now s.restarted
  | read => exact hkept.read
  | crash content cut now =>
    obtain ⟨hrestarted, hnow, hdistinct⟩ := hallowed
    cases cut with
    | unopened =>
      rw [keep, if_neg (fun h : AllReceived transform content .unopened => h)]
      exact hkept.restart hnow
    | removed =>
      rw [keep, if_pos (show AllReceived transform content .removed from trivial)]
      exact kept_finish s.disk content now true
    | received count =>
      have hfile := writer_file transform s.disk content
      by_cases hall : (completeFile transform content.1).length ≤ count
      · have hbytes : (writer transform s.disk content).file.take count =
            completeFile transform content.1 := by
          rw [hfile, List.take_of_length_le hall]
        rw [keep, if_pos (show AllReceived transform content (.received count) from hall)]
        exact kept_received_all hkept hnow hbytes hdistinct
      · have hbytes : readCopy transform ((writer transform s.disk content).file.take count) =
            none := by
          rw [hfile]
          exact htells count (not_le.mp hall)
        rw [keep, if_neg (show ¬ AllReceived transform content (.received count) from hall)]
        exact kept_received_part hkept hrestarted hnow hbytes

theorem kept_start : Kept transform .start none where
  clock _ _ h := by cases h
  rejected _ _ _ h := by cases h
  held _ h := by cases h

theorem Kept.run {s : State} {last : Option Content} {events : List Event}
    (hkept : Kept transform s last) (hadmissible : Admissible transform s events)
    (htells : ∀ e ∈ events, e.Tells transform) :
    Kept transform (run transform s events) (events.foldl (keep transform) last) := by
  induction events generalizing s last with
  | nil => exact hkept
  | cons e events ih =>
    obtain ⟨hallowed, hrest⟩ := hadmissible
    exact ih (hkept.step hallowed (htells e List.mem_cons_self)) hrest
      fun e' he' => htells e' (List.mem_cons_of_mem _ he')

theorem Kept.readFile {s : State} {last : Option Content} (hkept : Kept transform s last) :
    (readFile transform true s.disk).1 = last.map Content.read := by
  cases last with
  | none => rw [(hkept.rejected rfl).readFile, Option.map_none]
  | some content =>
    obtain ⟨slot, modified, hholds, -⟩ := hkept.held content rfl
    exact hholds.readFile.1

/-- Once a write has completed there is a content to read. -/
theorem lastContent_isSome {events : List Event} {content : Content} {now : ℕ}
    (hmem : .write content now ∈ events) : (lastContent transform events).isSome := by
  have hkeep : ∀ (events : List Event) (last : Option Content), last.isSome →
      (events.foldl (keep transform) last).isSome := by
    intro events
    induction events with
    | nil => exact fun _ h => h
    | cons e events ih =>
      intro last hsome
      refine ih _ ?_
      cases e with
      | write content now => rfl
      | read => exact hsome
      | crash content cut now =>
        rw [keep]
        split
        · rfl
        · exact hsome
  obtain ⟨before, after, rfl⟩ := List.append_of_mem hmem
  rw [lastContent, List.foldl_append, List.foldl_cons]
  exact hkeep _ _ rfl

/-- Through all writes, crashes and restarts `readFile` gives the last content,
and its arrays; after a completed write it gives one. -/
theorem readFile_survives (transform : Compression) (events : List Event)
    (hadmissible : Admissible transform .start events)
    (hmd5 : ∀ e ∈ events, e.Tells transform) :
    (readFile transform true (run transform .start events).disk).1 =
        (lastContent transform events).map Content.read ∧
      (∀ content : Content, readArrays content.1.length ⟨content.read.data, true⟩ =
        (content.1, ⟨[], true⟩)) ∧
      ((∃ content now, .write content now ∈ events) →
        (readFile transform true (run transform .start events).disk).1.isSome) := by
  have hread := (kept_start.run hadmissible hmd5).readFile
  refine ⟨hread, fun content => readArrays_streamBytes content.2, ?_⟩
  rintro ⟨content, now, hmem⟩
  rw [hread, Option.isSome_map]
  exact lastContent_isSome hmem


def byteContent (byte : UInt8) : Content :=
  ⟨[some [byte]], by simp [Fits, streamBytes, length_arrayBytes, QByteArray.bytes]⟩

theorem readFile_survives_twoCrashes :
    (readFile md5Transform true (run md5Transform .start
      [.write (byteContent 1) 10, .crash (byteContent 2) (.received 12) 11, .read,
        .crash (byteContent 3) (.received 40) 12]).disk).1 =
      some ⟨appVersion, [0, 0, 0, 1, 3]⟩ := by
  have htells : ∀ byte ∈ ([2, 3] : List UInt8), Tells md5Transform (byteContent byte) := by
    unfold Tells
    decide +kernel
  have hallowed : Admissible md5Transform .start
      [.write (byteContent 1) 10, .crash (byteContent 2) (.received 12) 11, .read,
        .crash (byteContent 3) (.received 40) 12] := by
    refine ⟨⟨rfl, by decide⟩, ⟨rfl, by decide, ?_⟩, trivial, ⟨rfl, by decide, ?_⟩, trivial⟩
    · unfold Distinct
      decide +kernel
    · unfold Distinct
      decide +kernel
  have hsurvives := (readFile_survives md5Transform _ hallowed (by
    simp only [List.forall_mem_cons]
    exact ⟨trivial, htells 2 (by decide), trivial, htells 3 (by decide), by simp⟩)).1
  have hlast : lastContent md5Transform
      [.write (byteContent 1) 10, .crash (byteContent 2) (.received 12) 11, .read,
        .crash (byteContent 3) (.received 40) 12] = some (byteContent 3) := by
    decide
  rw [hsurvives, hlast]
  decide

end Bettergram.Storage.Local

/-! ## Local files and a device that fails

The results of the writes are not looked at, and the old file is removed at the
end: when a part of the new file was lost, nothing is left to read.
-/

namespace Bettergram.Storage.Local

open Foundation Core FileWriteDescriptor

variable {transform : Compression} {device : Device}

/-- The files after the arrays are written on the device and the descriptor is finished. -/
abbrev written (transform : Compression) (device : Device) (disk : Disk)
    (arrays : List QByteArray) (now : ℕ) : Disk :=
  (ofArrays transform device true true disk arrays).finish disk now

/-- What the new file received. -/
abbrev received (transform : Compression) (device : Device) (disk : Disk)
    (arrays : List QByteArray) : List UInt8 :=
  (ofArrays transform device true true disk arrays).file

/-- When the new file is not accepted, nothing is. -/
theorem readFile_written_none {disk : Disk} {arrays : List QByteArray} {now : ℕ}
    (hbytes : readCopy transform (received transform device disk arrays) = none) :
    (readFile transform true (written transform device disk arrays now)).1 = none := by
  obtain ⟨hown, honly⟩ :=
    finish_single transform device disk arrays now
  rw [readFile_single hown honly]
  exact hbytes

/-- A failed write keeps what was readable just when it is none that failed or
there was nothing to read. -/
theorem failed_write_iff (transform : Compression) (device : Device)
    (disk : Disk) (arrays : List QByteArray) (now : ℕ)
    (hmd5 : received transform device disk arrays ≠ completeFile transform arrays →
      readCopy transform (received transform device disk arrays) = none) :
    (received transform device disk arrays ≠ completeFile transform arrays →
      ∀ read, (readFile transform true disk).1 = some read →
        (readFile transform true (written transform device disk arrays now)).1 = some read) ↔
      Takes device (writeCalls transform arrays) ∨ (readFile transform true disk).1 = none := by
  constructor
  · intro hkept
    by_cases htakes : Takes device (writeCalls transform arrays)
    · exact .inl htakes
    · right
      have hpart := mt (file_eq_completeFile_iff true disk arrays).mp htakes
      cases hbefore : (readFile transform true disk).1 with
      | none => rfl
      | some read =>
        have hafter := hkept hpart read hbefore
        rw [readFile_written_none (hmd5 hpart)] at hafter
        cases hafter
  · rintro (htakes | hnothing) hpart read hbefore
    · exact absurd ((file_eq_completeFile_iff true disk arrays).mpr htakes) hpart
    · rw [hnothing] at hbefore
      cases hbefore

/-- A disk that is full from the third write on. -/
def fullDevice : Device := fun call => if call < 2 then none else some 0

theorem failed_write_iff_full :
    (received md5Transform fullDevice (run md5Transform .start [.write (byteContent 1) 10]).disk
        [some [2]] ≠ completeFile md5Transform [some [2]] →
      ∀ read, (readFile md5Transform true
          (run md5Transform .start [.write (byteContent 1) 10]).disk).1 = some read →
        (readFile md5Transform true (written md5Transform fullDevice
          (run md5Transform .start [.write (byteContent 1) 10]).disk [some [2]] 11)).1 =
            some read) ↔
      Takes fullDevice (writeCalls md5Transform [some [2]]) ∨
        (readFile md5Transform true
          (run md5Transform .start [.write (byteContent 1) 10]).disk).1 = none :=
  failed_write_iff md5Transform fullDevice _ [some [2]] 11 (by decide)

/-- The content that could be read is gone after a write that got no byte of its own through. -/
theorem failed_write_loses :
    ¬ ∀ (device : Device) (disk : Disk) (arrays : List QByteArray) (now : ℕ),
      received md5Transform device disk arrays ≠ completeFile md5Transform arrays →
      ∀ read, (readFile md5Transform true disk).1 = some read →
        (readFile md5Transform true (written md5Transform device disk arrays now)).1 =
          some read := by
  intro hkept
  have hbefore : (readFile md5Transform true
      (run md5Transform .start [.write (byteContent 1) 10]).disk).1 =
        some ⟨appVersion, [0, 0, 0, 1, 1]⟩ := by decide +kernel
  have hafter := hkept fullDevice _ [some [2]] 11 (by decide +kernel) _ hbefore
  revert hafter
  decide +kernel

end Bettergram.Storage.Local
