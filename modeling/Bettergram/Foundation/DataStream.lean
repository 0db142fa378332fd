import Bettergram.Foundation.LittleEndian

/-! # A stream of big-endian words

A read behind the end gives zero and spoils the status; raw bytes are read as
far as there are any.
-/

namespace Bettergram.Foundation

structure DataStream where
  rest : List UInt8
  ok : Bool := true

namespace DataStream

def writeInt32 (x : Int32) : List UInt8 := (wordBytes x).reverse

def readInt32 (d : DataStream) : Int32 × DataStream :=
  if 4 ≤ d.rest.length then
    ((UInt32.ofNat (leNat (d.rest.take 4).reverse)).toInt32, { d with rest := d.rest.drop 4 })
  else (0, ⟨[], false⟩)

def readRaw (n : ℕ) (d : DataStream) : List UInt8 × DataStream :=
  (d.rest.take n, { d with rest := d.rest.drop n })

@[simp] theorem length_writeInt32 (x : Int32) : (writeInt32 x).length = 4 := by
  simp [writeInt32, wordBytes]

theorem leNat_wordBytes (x : Int32) : (UInt32.ofNat (leNat (wordBytes x))).toInt32 = x := by
  have hlt : x.toUInt32.toNat < 256 ^ 4 := x.toUInt32.toNat_lt
  rw [wordBytes, leNat_leBytes_of_lt hlt, UInt32.ofNat_toNat, Int32.toInt32_toUInt32]

/-- What was written is read back, and the rest is left. -/
@[simp] theorem readInt32_write (x : Int32) (rest : List UInt8) (ok : Bool) :
    readInt32 ⟨writeInt32 x ++ rest, ok⟩ = (x, ⟨rest, ok⟩) := by
  have hlength : 4 ≤ (writeInt32 x ++ rest).length := by simp
  have htake : (writeInt32 x ++ rest).take 4 = writeInt32 x :=
    List.take_left' (length_writeInt32 x)
  have hdrop : (writeInt32 x ++ rest).drop 4 = rest := List.drop_left' (length_writeInt32 x)
  rw [readInt32, if_pos hlength]
  dsimp only
  rw [htake, hdrop, writeInt32, List.reverse_reverse, leNat_wordBytes]

@[simp] theorem readRaw_append (bytes rest : List UInt8) (ok : Bool) :
    readRaw bytes.length ⟨bytes ++ rest, ok⟩ = (bytes, ⟨rest, ok⟩) := by
  simp [readRaw]

/-- A word is there, or the end is met. -/
theorem readInt32_cases (d : DataStream) :
    (∃ x rest, d.rest = writeInt32 x ++ rest ∧ d.readInt32 = (x, ⟨rest, d.ok⟩)) ∨
      (d.rest.length < 4 ∧ d.readInt32 = (0, ⟨[], false⟩)) := by
  by_cases hlength : 4 ≤ d.rest.length
  · left
    have htake : writeInt32 (UInt32.ofNat (leNat (d.rest.take 4).reverse)).toInt32 =
        d.rest.take 4 := by
      rw [writeInt32, wordBytes_ofNat (by simp [hlength]), List.reverse_reverse]
    refine ⟨_, d.rest.drop 4, ?_, if_pos hlength⟩
    rw [htake, List.take_append_drop]
  · exact .inr ⟨not_le.mp hlength, if_neg hlength⟩

theorem readInt32_ok {d : DataStream} (h : d.readInt32.2.ok) :
    ∃ x rest, d.rest = writeInt32 x ++ rest ∧ d.readInt32 = (x, ⟨rest, d.ok⟩) := by
  obtain hread | ⟨-, hend⟩ := d.readInt32_cases
  · exact hread
  · simp [hend] at h

end DataStream

end Bettergram.Foundation

/-! ## Strings in a stream of big-endian words

A string is the number of its bytes and its UTF-16 units, the high byte of each
first. The null string has a number of its own.
-/

namespace Bettergram.Foundation.DataStream

/-- A string has fewer than `2 ^ 31` units; `none` is the null string. -/
abbrev StreamString := Option {units : List UInt16 // units.length < 2 ^ 31}

def writeUInt32 (x : UInt32) : List UInt8 := writeInt32 x.toInt32

def readUInt32 (d : DataStream) : UInt32 × DataStream :=
  (d.readInt32.1.toUInt32, d.readInt32.2)

def unitBytes (unit : UInt16) : List UInt8 := [UInt8.ofNat (unit.toNat / 256), UInt8.ofNat unit.toNat]

/-- Packs bytes two by two. -/
def unitsOfBytes : List UInt8 → List UInt16
  | high :: low :: bytes => UInt16.ofNat (256 * high.toNat + low.toNat) :: unitsOfBytes bytes
  | _ => []

def writeString : StreamString → List UInt8
  | none => writeUInt32 0xFFFFFFFF
  | some s => writeUInt32 (UInt32.ofNat (2 * s.val.length)) ++ s.val.flatMap unitBytes

theorem length_unitsOfBytes (bytes : List UInt8) :
    (unitsOfBytes bytes).length = bytes.length / 2 := by
  induction bytes using unitsOfBytes.induct with
  | case1 high low bytes ih =>
    rw [unitsOfBytes, List.length_cons, ih, List.length_cons, List.length_cons]
    omega
  | case2 bytes hshort =>
    match bytes, hshort with
    | [], _ => rfl
    | [_], _ => simp [unitsOfBytes]
    | high :: low :: rest, hshort => exact absurd rfl (hshort high low rest)

/-- The string of `bytes` bytes that the stream has next. -/
def readUnits (bytes : UInt32) (d : DataStream) : StreamString × DataStream :=
  let units := (d.readRaw bytes.toNat).1
  if hlength : units.length = bytes.toNat then
    (some ⟨unitsOfBytes units, by
      have := bytes.toNat_lt
      rw [length_unitsOfBytes]
      omega⟩, (d.readRaw bytes.toNat).2)
  else (none, ⟨[], false⟩)

def readString (d : DataStream) : StreamString × DataStream :=
  let (bytes, d) := d.readUInt32
  if bytes = 0xFFFFFFFF then (none, d)
  else if bytes % 2 = 1 then (none, { d with ok := false })
  else readUnits bytes d

@[simp] theorem readUInt32_write (x : UInt32) (rest : List UInt8) (ok : Bool) :
    readUInt32 ⟨writeUInt32 x ++ rest, ok⟩ = (x, ⟨rest, ok⟩) := by
  simp [readUInt32, writeUInt32]

theorem unitsOfBytes_flatMap (units : List UInt16) :
    unitsOfBytes (units.flatMap unitBytes) = units := by
  induction units with
  | nil => rfl
  | cons unit units ih =>
    have hlt : unit.toNat < 2 ^ 16 := unit.toNat_lt
    have hunit : UInt16.ofNat (256 * (UInt8.ofNat (unit.toNat / 256)).toNat +
        (UInt8.ofNat unit.toNat).toNat) = unit := by
      apply UInt16.toNat_inj.mp
      simp only [UInt8.toNat_ofNat', UInt16.toNat_ofNat']
      omega
    rw [List.flatMap_cons, unitBytes, List.cons_append, List.cons_append, List.nil_append,
      unitsOfBytes, hunit, ih]

theorem length_flatMap_unitBytes (units : List UInt16) :
    (units.flatMap unitBytes).length = 2 * units.length := by
  induction units with
  | nil => rfl
  | cons unit units ih =>
    rw [List.flatMap_cons, List.length_append, ih, List.length_cons, unitBytes, List.length_cons,
      List.length_cons, List.length_nil]
    omega

/-- A string that was written is read back, and the rest is left. -/
@[simp] theorem readString_write (s : StreamString) (rest : List UInt8) (ok : Bool) :
    readString ⟨writeString s ++ rest, ok⟩ = (s, ⟨rest, ok⟩) := by
  cases s with
  | none => simp [readString, writeString]
  | some s =>
    obtain ⟨units, hunits⟩ := s
    have hsize : (UInt32.ofNat (2 * units.length)).toNat = 2 * units.length := by
      rw [UInt32.toNat_ofNat', Nat.mod_eq_of_lt (by omega)]
    have hnull : UInt32.ofNat (2 * units.length) ≠ 0xFFFFFFFF := by
      intro h
      have := congrArg UInt32.toNat h
      simp only [hsize, UInt32.reduceToNat] at this
      omega
    have heven : UInt32.ofNat (2 * units.length) % 2 ≠ 1 := by
      intro h
      have := congrArg UInt32.toNat h
      simp only [UInt32.toNat_mod, hsize, UInt32.reduceToNat] at this
      omega
    have hraw : readRaw (2 * units.length) ⟨units.flatMap unitBytes ++ rest, ok⟩ =
        (units.flatMap unitBytes, ⟨rest, ok⟩) := by
      rw [← length_flatMap_unitBytes, readRaw_append]
    rw [writeString, List.append_assoc, readString, readUInt32_write]
    dsimp only
    rw [if_neg hnull, if_neg heven, readUnits]
    simp only [hsize, hraw, length_flatMap_unitBytes, unitsOfBytes_flatMap, dif_pos]

end Bettergram.Foundation.DataStream
