import Mathlib.Algebra.Group.Int.Defs
import Mathlib.Algebra.GroupWithZero.Nat
import Mathlib.Data.List.Basic
import Mathlib.Data.Nat.Cast.Defs
import Mathlib.Order.Nat

/-! # Files of the export

A file takes blocks. After a failure it is closed, and opened again by the next
block, which first cuts off what the failure has left. The device decides, for each
block, what it does of what it is asked for.
-/

namespace Bettergram.Export.Output

variable {Path : Type}

inductive Result (Path : Type) where
  | success
  | error (path : Path)
  | fatalError (path : Path)
deriving DecidableEq

def Result.isSuccess : Result Path → Bool
  | .success => true
  | _ => false

structure Stats where
  files : ℕ
  bytes : ℕ
deriving DecidableEq

/-- A file of the system: `buffer` has the bytes that it has accepted and not written. -/
structure Handle where
  isOpen : Bool
  buffer : List UInt8
deriving DecidableEq

structure File (Path : Type) where
  path : Path
  offset : Int32
  file : Option Handle
  stats : Option Stats
  inStats : Bool
deriving DecidableEq

/-- What the device does for a block: of `accepted` bytes `atOnce` are written, and `late` ones more
when the file is closed. -/
structure Device where
  resizes : Bool
  opens : Bool
  opensInNewPath : Bool
  accepted : ℕ
  flushes : Bool
  atOnce : ℕ
  late : ℕ

/-- The bytes under the path, if there are any, and the file. -/
structure State (Path : Type) where
  disk : Option (List UInt8)
  file : File Path
deriving DecidableEq

namespace State

variable (device : Device) (block : List UInt8)

def size (s : State Path) : Int32 := s.file.offset

def error (s : State Path) : Result Path := .error s.file.path

def fatalError (s : State Path) : Result Path := .fatalError s.file.path

def setFile (s : State Path) (handle : Option Handle) : State Path :=
  { s with file := { s.file with file := handle } }

/-- `open(QIODevice::Append)`, perhaps only after the path has been made. -/
def openToAppend (s : State Path) : Result Path × State Path :=
  if device.opens ∨ device.opensInNewPath then
    (.success, { s with disk := some (s.disk.getD []) }.setFile (some ⟨true, []⟩))
  else (s.error, s)

def reopen (s : State Path) : Result Path × State Path :=
  if s.file.file.any Handle.isOpen then (.success, s)
  else
    let s := s.setFile (some ⟨false, []⟩)
    match s.disk with
    | some bytes =>
      if (bytes.length : ℤ) < s.file.offset.toInt then (s.fatalError, s)
      else if device.resizes ∧ 0 ≤ s.file.offset then
        openToAppend device { s with disk := some (bytes.take s.file.offset.toInt.toNat) }
      else (s.error, s)
    | none => if 0 < s.file.offset then (s.fatalError, s) else openToAppend device s

/-- `write` and `flush`: whether all of it is on the disk. -/
def writeAndFlush (s : State Path) : Bool × State Path :=
  if device.accepted = block.length ∧ device.flushes then
    (true, { s with disk := s.disk.map (· ++ block) })
  else
    let accepted := block.take device.accepted
    (false, { s with disk := s.disk.map (· ++ accepted.take device.atOnce) }.setFile
      (some ⟨true, accepted.drop device.atOnce⟩))

def countFile (s : State Path) : State Path :=
  if s.file.inStats then s
  else { s with file := { s.file with
    stats := s.file.stats.map fun stats => { stats with files := stats.files + 1 }
    inStats := s.file.stats.isSome } }

def writeBlockAttempt (s : State Path) : Result Path × State Path :=
  let (result, s) := (s.countFile).reopen device
  if !result.isSuccess then (result, s)
  else if block = [] then (.success, s)
  else
    let (written, s) := s.writeAndFlush device block
    if written then
      (.success, { s with file := { s.file with
        offset := s.file.offset + Int32.ofNat block.length
        stats := s.file.stats.map fun stats =>
          { stats with bytes := stats.bytes + block.length } } })
    else (s.error, s)

/-- `_file.reset()`: the file is closed, and more of its bytes may get to the disk. -/
def reset (s : State Path) : State Path :=
  let buffer := (s.file.file.map Handle.buffer).getD []
  { s with disk := s.disk.map (· ++ buffer.take device.late) }.setFile none

def writeBlock (s : State Path) : Result Path × State Path :=
  let (result, s) := s.writeBlockAttempt device block
  (result, if result.isSuccess then s else s.reset device)

end State

/-- A file that has not been written to, over whatever stands under its path. -/
def State.start (path : Path) (disk : Option (List UInt8)) (stats : Option Stats) : State Path :=
  ⟨disk, ⟨path, 0, none, stats, false⟩⟩

/-- A block, and what the device does for it. -/
structure Call where
  block : List UInt8
  device : Device

/-- The state after the calls, and the blocks whose write reported success. -/
def runFrom (s : State Path) : List Call → State Path × List (List UInt8)
  | [] => (s, [])
  | call :: calls =>
    let (result, s) := s.writeBlock call.device call.block
    let (s, blocks) := runFrom s calls
    (s, if result.isSuccess then call.block :: blocks else blocks)

end Bettergram.Export.Output

/-! ## Files hold the blocks that were written

An open file has exactly the blocks that succeeded, and under the path of a closed
one these are followed by what failures have left. The offset is a 32-bit number.
-/

namespace Bettergram.Export.Output.State

variable {Path : Type} {device : Device} {block done : List UInt8} {s s' : State Path}
  {stats : Option Stats} {result : Result Path}

/-- The file with the bytes of all blocks that succeeded, counted from `stats` on. -/
structure Holds (stats : Option Stats) (s : State Path) (done : List UInt8) : Prop where
  fits : done.length < 2 ^ 31
  offset : s.file.offset.toInt = done.length
  counted : s.file.stats.map Stats.bytes = stats.map fun stats => stats.bytes + done.length
  opened : ∀ handle, s.file.file = some handle → handle = ⟨true, []⟩ ∧ s.disk = some done
  closed : s.file.file = none → done = [] ∨ ∃ left, s.disk = some (done ++ left)

theorem holds_start (path : Path) (disk : Option (List UInt8)) (stats : Option Stats) :
    Holds stats (start path disk stats) [] where
  fits := by decide
  offset := rfl
  counted := by simp [start]
  opened _ h := by simp [start] at h
  closed _ := .inl rfl

/-! ## Opening -/

/-- The file that is given to the block. -/
structure Opened (s s' : State Path) (done : List UInt8) : Prop where
  disk : s'.disk = some done
  file : s'.file = { s.file with file := some ⟨true, []⟩ }

/-- The file that could not be opened. -/
structure Missed (s s' : State Path) (done : List UInt8) : Prop where
  disk : done = [] ∨ ∃ left, s'.disk = some (done ++ left)
  file : s'.file = { s.file with file := some ⟨false, []⟩ }

theorem openToAppend_cases (device : Device) (s : State Path) :
    (openToAppend device s = (.success,
        { s with disk := some (s.disk.getD []) }.setFile (some ⟨true, []⟩))) ∨
      (openToAppend device s).1.isSuccess = false ∧ (openToAppend device s).2 = s := by
  rw [openToAppend]
  split_ifs
  · exact .inl rfl
  · exact .inr ⟨rfl, rfl⟩

theorem Holds.take_offset {left : List UInt8} (hs : s.Holds stats done) :
    (done ++ left).take s.file.offset.toInt.toNat = done := by
  rw [hs.offset, Int.toNat_natCast, List.take_left]

theorem Holds.offset_nonneg (hs : s.Holds stats done) : 0 ≤ s.file.offset := by
  rw [Int32.le_iff_toInt_le, hs.offset, Int32.toInt_zero]
  exact Int.natCast_nonneg _

/-- The file is opened with what succeeded before, or not. -/
theorem Holds.reopen (hs : s.Holds stats done) (device : Device) :
    ((s.reopen device).1 = .success ∧ Opened s (s.reopen device).2 done) ∨
      ((s.reopen device).1.isSuccess = false ∧ Missed s (s.reopen device).2 done) := by
  cases hfile : s.file.file with
  | some handle =>
    obtain ⟨rfl, hdisk⟩ := hs.opened handle hfile
    have hopen : s.reopen device = (.success, s) := if_pos (by rw [hfile]; rfl)
    rw [hopen]
    exact .inl ⟨rfl, hdisk, by rw [← hfile]⟩
  | none =>
    have hclosed : ¬s.file.file.any Handle.isOpen = true := by simp [hfile]
    -- from a state with the right bytes under the path
    have hopens : ∀ t : State Path, t.file = (s.setFile (some ⟨false, []⟩)).file →
        t.disk.getD [] = done → (done = [] ∨ t.disk = some done) →
        ((openToAppend device t).1 = .success ∧ Opened s (openToAppend device t).2 done) ∨
          ((openToAppend device t).1.isSuccess = false ∧
            Missed s (openToAppend device t).2 done) := by
      intro t ht hdisk hleft
      obtain hopened | ⟨hfailed, hsame⟩ := openToAppend_cases device t
      · rw [hopened]
        refine .inl ⟨rfl, by simp [setFile, hdisk], ?_⟩
        simp [setFile, ht]
      · rw [hsame]
        exact .inr ⟨hfailed, hleft.imp_right fun h => ⟨[], by rw [h, List.append_nil]⟩, ht⟩
    rw [State.reopen, if_neg hclosed]
    dsimp only
    cases hdisk : s.disk with
    | none =>
      have hempty : done = [] := by
        obtain hempty | ⟨left, hleft⟩ := hs.closed hfile
        · exact hempty
        · rw [hdisk] at hleft
          cases hleft
      have hzero : ¬0 < s.file.offset := by
        rw [Int32.lt_iff_toInt_lt, hs.offset, hempty]
        decide
      simp only [setFile, hdisk, hzero, if_false]
      exact hopens _ rfl (by simp [hempty]) (.inl hempty)
    | some bytes =>
      obtain ⟨left, rfl⟩ : ∃ left, bytes = done ++ left := by
        obtain rfl | ⟨left, hleft⟩ := hs.closed hfile
        · exact ⟨bytes, rfl⟩
        · exact ⟨left, Option.some.inj (hdisk.symm.trans hleft)⟩
      have hlong : ¬((done ++ left).length : ℤ) < s.file.offset.toInt := by
        rw [hs.offset, List.length_append]
        omega
      simp only [setFile, hdisk, hlong, if_false]
      by_cases hresizes : device.resizes = true ∧ 0 ≤ s.file.offset
      · rw [if_pos hresizes]
        exact hopens _ rfl hs.take_offset (.inr (congrArg some hs.take_offset))
      · rw [if_neg hresizes]
        exact .inr ⟨rfl, .inr ⟨left, by simp⟩, rfl⟩

/-! ## A block -/

theorem Holds.countFile (hs : s.Holds stats done) : s.countFile.Holds stats done := by
  rw [State.countFile]
  split_ifs
  · exact hs
  · exact ⟨hs.fits, hs.offset, by simpa [Option.map_map, Function.comp_def] using hs.counted,
      hs.opened, hs.closed⟩

theorem Opened.holds {t : State Path} (h : Opened s t done) (hs : s.Holds stats done) :
    t.Holds stats done where
  fits := hs.fits
  offset := by rw [h.file, ← hs.offset]
  counted := by rw [h.file, ← hs.counted]
  opened handle hhandle := by
    rw [h.file] at hhandle
    exact ⟨(Option.some.inj hhandle).symm, h.disk⟩
  closed hnone := by
    rw [h.file] at hnone
    cases hnone

/-- A closed file keeps what succeeded, with what failures have left behind it. -/
theorem Holds.closeWith {t : State Path} (hs : s.Holds stats done)
    (hfile : t.file = { s.file with file := none })
    (hdisk : done = [] ∨ ∃ left, t.disk = some (done ++ left)) : t.Holds stats done where
  fits := hs.fits
  offset := by rw [hfile, ← hs.offset]
  counted := by rw [hfile, ← hs.counted]
  opened handle hhandle := by
    rw [hfile] at hhandle
    cases hhandle
  closed _ := hdisk

theorem Missed.reset {t : State Path} (h : Missed s t done) (hs : s.Holds stats done) :
    (t.reset device).Holds stats done := by
  refine hs.closeWith ?_ ?_
  · simp [State.reset, setFile, h.file]
  · refine h.disk.imp_right ?_
    rintro ⟨left, hleft⟩
    exact ⟨left, by simp [State.reset, setFile, h.file, hleft]⟩

/-- All of the block is on the disk, or some of it may get there. -/
theorem writeAndFlush_cases (device : Device) (block : List UInt8) (s : State Path) :
    s.writeAndFlush device block = (true, { s with disk := s.disk.map (· ++ block) }) ∨
      ∃ now later, s.writeAndFlush device block = (false,
        { s with disk := s.disk.map (· ++ now) }.setFile (some ⟨true, later⟩)) := by
  rw [writeAndFlush]
  split_ifs
  · exact .inl rfl
  · exact .inr ⟨_, _, rfl⟩

theorem toInt_add_length (hs : s.Holds stats done) (hfits : (done ++ block).length < 2 ^ 31) :
    (s.file.offset + Int32.ofNat block.length).toInt = (done ++ block).length := by
  rw [List.length_append] at hfits ⊢
  rw [Int32.toInt_add, hs.offset, Int32.toInt_ofNat_of_lt (by omega)]
  exact Int.bmod_eq_of_le (by omega) (by omega)

/-- After a block that succeeds the file is open with it. -/
theorem Holds.writeBlockAttempt (hs : s.Holds stats done) (device : Device) (block : List UInt8)
    (hfits : (s.writeBlockAttempt device block).1 = .success → (done ++ block).length < 2 ^ 31) :
    ((s.writeBlockAttempt device block).1 = .success ∧
        (s.writeBlockAttempt device block).2.Holds stats (done ++ block) ∧
        (s.writeBlockAttempt device block).2.disk = some (done ++ block)) ∨
      ((s.writeBlockAttempt device block).1.isSuccess = false ∧
        ((s.writeBlockAttempt device block).2.reset device).Holds stats done) := by
  have hcounted := hs.countFile
  rw [State.writeBlockAttempt] at hfits ⊢
  obtain ⟨hsuccess, hopened⟩ | ⟨hfailed, hmissed⟩ := hcounted.reopen device
  swap
  · generalize s.countFile.reopen device = attempt at hfailed hmissed
    obtain ⟨result, t⟩ := attempt
    simp only at hfailed hmissed
    simp only [hfailed, Bool.not_false, if_true]
    exact .inr ⟨trivial, hmissed.reset hcounted⟩
  generalize s.countFile.reopen device = attempt at hsuccess hopened hfits
  obtain ⟨result, t⟩ := attempt
  simp only at hsuccess hopened
  have ht := hopened.holds hcounted
  subst hsuccess
  simp only [Result.isSuccess, Bool.not_true, Bool.false_eq_true, if_false] at hfits ⊢
  by_cases hblock : block = []
  · rw [if_pos hblock, hblock, List.append_nil]
    exact .inl ⟨rfl, ht, hopened.disk⟩
  rw [if_neg hblock] at hfits ⊢
  obtain hwritten | ⟨now, later, hfailed⟩ := writeAndFlush_cases device block t
  · rw [hwritten] at hfits ⊢
    replace hfits := hfits rfl
    refine .inl ⟨rfl, ?_, by simp [hopened.disk]⟩
    exact {
      fits := hfits
      offset := (toInt_add_length ht hfits :)
      counted := by
        have hcount := congrArg (Option.map (· + block.length)) ht.counted
        simpa [Option.map_map, Function.comp_def, Nat.add_assoc] using hcount
      opened := fun handle hhandle => ⟨(ht.opened handle hhandle).1, by simp [hopened.disk]⟩
      closed := fun hnone => by
        rw [hopened.file] at hnone
        cases hnone }
  · rw [hfailed]
    refine .inr ⟨rfl, ht.closeWith (by simp [State.reset, setFile])
      (.inr ⟨now ++ later.take device.late, ?_⟩)⟩
    simp [State.reset, setFile, hopened.disk]

/-- A block that succeeds stands behind those before it; one that fails leaves them. -/
theorem Holds.writeBlock (hs : s.Holds stats done) (device : Device) (block : List UInt8)
    (hfits : (s.writeBlock device block).1 = .success → (done ++ block).length < 2 ^ 31) :
    ((s.writeBlock device block).1 = .success ∧
        (s.writeBlock device block).2.Holds stats (done ++ block) ∧
        (s.writeBlock device block).2.disk = some (done ++ block)) ∨
      ((s.writeBlock device block).1.isSuccess = false ∧
        (s.writeBlock device block).2.Holds stats done) := by
  rw [State.writeBlock] at hfits ⊢
  obtain ⟨hsuccess, hholds, hdisk⟩ | ⟨hfailed, hreset⟩ :=
    hs.writeBlockAttempt device block hfits
  · simp only [hsuccess, Result.isSuccess, if_true]
    exact .inl ⟨trivial, hholds, hdisk⟩
  · simp only [hfailed, Bool.false_eq_true, if_false]
    exact .inr ⟨trivial, hreset⟩

theorem isSuccess_iff (result : Result Path) : result.isSuccess = true ↔ result = .success := by
  cases result <;> simp [Result.isSuccess]

/-- After any calls the file has the blocks that succeeded, as long as they fit. -/
theorem Holds.run (hs : s.Holds stats done) (calls : List Call)
    (hfits : (done ++ (runFrom s calls).2.flatten).length < 2 ^ 31) :
    (runFrom s calls).1.Holds stats (done ++ (runFrom s calls).2.flatten) := by
  induction calls generalizing s done with
  | nil => simpa [runFrom] using hs
  | cons call calls ih =>
    have hcase := hs.writeBlock call.device call.block
    rw [runFrom] at hfits ⊢
    generalize s.writeBlock call.device call.block = step at hcase hfits ⊢
    obtain ⟨result, t⟩ := step
    simp only at hcase hfits ⊢
    by_cases hsuccess : result.isSuccess = true
    · rw [if_pos hsuccess, List.flatten_cons, ← List.append_assoc] at hfits ⊢
      have hblock : (done ++ call.block).length < 2 ^ 31 := by
        rw [List.length_append] at hfits
        omega
      obtain ⟨-, hholds, -⟩ | ⟨hfailed, -⟩ := hcase fun _ => hblock
      · exact ih hholds hfits
      · rw [hsuccess] at hfailed
        cases hfailed
    · rw [if_neg hsuccess] at hfits ⊢
      obtain ⟨rfl, -⟩ | ⟨-, hholds⟩ := hcase fun h => absurd ((isSuccess_iff result).mpr h) hsuccess
      · exact absurd rfl hsuccess
      · exact ih hholds hfits

/-- The file has the blocks, its size is their length, and the statistics count each one's bytes. -/
def Right (stats : Option Stats) (s : State Path) (blocks : List (List UInt8)) : Prop :=
  s.disk = some blocks.flatten ∧ s.size.toInt = blocks.flatten.length ∧
    s.file.stats.map Stats.bytes = stats.map fun stats => stats.bytes + (blocks.map List.length).sum

/-- After a block that succeeds the file is right exactly when the bytes written before and those of
the block are fewer than `2 ^ 31`. -/
theorem writeBlock_right_iff (path : Path) (disk : Option (List UInt8)) (stats : Option Stats)
    (calls : List Call) (call : Call)
    (hsuccess : ((runFrom (start path disk stats) calls).1.writeBlock call.device call.block).1 =
      .success) :
    Right stats ((runFrom (start path disk stats) calls).1.writeBlock call.device call.block).2
        ((runFrom (start path disk stats) calls).2 ++ [call.block]) ↔
      (runFrom (start path disk stats) calls).2.flatten.length + call.block.length < 2 ^ 31 := by
  have hflatten : ((runFrom (start path disk stats) calls).2 ++ [call.block]).flatten =
      (runFrom (start path disk stats) calls).2.flatten ++ call.block := by simp
  constructor
  · rintro ⟨-, hsize, -⟩
    have hlt := Int32.toInt_lt
      ((runFrom (start path disk stats) calls).1.writeBlock call.device call.block).2.size
    rw [hsize, hflatten, List.length_append] at hlt
    omega
  · intro hfits
    have hbefore := (holds_start path disk stats).run calls (by rw [List.nil_append]; omega)
    rw [List.nil_append] at hbefore
    obtain ⟨-, hholds, hdisk⟩ | ⟨hfailed, -⟩ := hbefore.writeBlock call.device
      call.block fun _ => by rwa [List.length_append]
    · refine ⟨by rw [hflatten, hdisk], by rw [hflatten]; exact hholds.offset, ?_⟩
      rw [hholds.counted, ← hflatten, List.length_flatten]
    · rw [hsuccess] at hfailed
      cases hfailed


/-! ## Large files -/

/-- A device on which nothing fails. -/
def sound (block : List UInt8) : Device := ⟨true, true, true, block.length, true, 0, 0⟩

/-- A sound device takes a block for an open file, and for one that there was nothing of. -/
theorem writeBlock_sound (h : s.file.file.any Handle.isOpen = true ∨
    s.file.file = none ∧ s.disk = none ∧ s.file.offset = 0) (block : List UInt8) :
    (s.writeBlock (sound block) block).1 = .success ∧
      (s.writeBlock (sound block) block).2.file.file.any Handle.isOpen = true := by
  have hreopen : (s.countFile.reopen (sound block)).1 = .success ∧
      (s.countFile.reopen (sound block)).2.file.file.any Handle.isOpen = true := by
    have hfile : s.countFile.file.file = s.file.file := by rw [State.countFile]; split <;> rfl
    have hdisk : s.countFile.disk = s.disk := by rw [State.countFile]; split <;> rfl
    have hoffset : s.countFile.file.offset = s.file.offset := by rw [State.countFile]; split <;> rfl
    obtain hopen | ⟨hnone, hempty, hzero⟩ := h
    · rw [State.reopen, if_pos (by rwa [hfile])]
      exact ⟨rfl, by rwa [hfile]⟩
    · rw [State.reopen, if_neg (by simp [hfile, hnone])]
      simp [setFile, hdisk, hempty, hoffset, hzero, openToAppend, sound]
  rw [State.writeBlock, State.writeBlockAttempt]
  generalize s.countFile.reopen (sound block) = attempt at hreopen
  obtain ⟨result, t⟩ := attempt
  obtain ⟨rfl, hopen⟩ := hreopen
  have hwritten : t.writeAndFlush (sound block) block =
      (true, { t with disk := t.disk.map (· ++ block) }) := if_pos ⟨rfl, rfl⟩
  by_cases hblock : block = []
  · simpa [Result.isSuccess, hblock] using hopen
  · simpa [Result.isSuccess, hblock, hwritten] using hopen

/-- A call with a failing device and one with a sound device. -/
theorem writeBlock_right_iff_two :
    Right (some ⟨0, 7⟩) ((runFrom (start () (some [9]) (some ⟨0, 7⟩))
        [⟨[1, 2, 3], ⟨true, true, true, 2, true, 1, 1⟩⟩]).1.writeBlock (sound [4, 5]) [4, 5]).2
      [[4, 5]] :=
  (writeBlock_right_iff () (some [9]) (some ⟨0, 7⟩) [⟨[1, 2, 3], ⟨true, true, true, 2, true, 1, 1⟩⟩]
    ⟨[4, 5], sound [4, 5]⟩ (by decide)).mpr (by decide)

/-- Two blocks of `2 ^ 30` bytes each are taken, and the file does not know its size. -/
theorem writeBlock_not_right : ∃ block : List UInt8,
    ((runFrom (start () none none) [⟨block, sound block⟩]).1.writeBlock (sound block) block).1 =
        .success ∧
      block ≠ [] ∧
      ¬Right none ((runFrom (start () none none) [⟨block, sound block⟩]).1.writeBlock
        (sound block) block).2 [block, block] := by
  obtain ⟨block, hlength⟩ : ∃ block : List UInt8, block.length = 2 ^ 30 :=
    ⟨.replicate (2 ^ 30) 0, List.length_replicate⟩
  have hfirst := writeBlock_sound (s := start () none none) (.inr ⟨rfl, rfl, rfl⟩) block
  have hsecond := (writeBlock_sound (.inl hfirst.2) block).1
  refine ⟨block, hsecond, ?_, ?_⟩
  · rintro rfl
    simp at hlength
  · rintro ⟨-, hsize, -⟩
    have hlt := Int32.toInt_lt ((runFrom (start () none none) [⟨block, sound block⟩]).1.writeBlock
      (sound block) block).2.size
    rw [hsize, List.flatten_cons, List.flatten_cons, List.flatten_nil, List.append_nil,
      List.length_append, hlength] at hlt
    omega

end Bettergram.Export.Output.State
