import Bettergram.Foundation.LittleEndian
import Mathlib.Logic.Function.Iterate
import Mathlib.Algebra.Group.Nat.Defs

/-! # The checksum of utils

`hashCrc32` takes a byte at a time from a table. It is the remainder that is shifted out
bit by bit, and it tells apart data that differ in up to four bytes in a row only.
-/

namespace Bettergram.Core

open Foundation

/-! ## Shifts of a remainder -/

section

variable {w : ℕ} {poly : BitVec w}

/-- One bit of the remainder is shifted out; the reversed polynomial is `poly`. -/
def shiftStep (poly c : BitVec w) : BitVec w :=
  if c.getLsbD 0 then (c >>> 1) ^^^ poly else c >>> 1

theorem shiftStep_xor (poly a b : BitVec w) :
    shiftStep poly (a ^^^ b) = shiftStep poly a ^^^ shiftStep poly b := by
  rw [shiftStep, shiftStep, shiftStep, BitVec.getLsbD_xor, BitVec.ushiftRight_xor_distrib]
  cases a.getLsbD 0 <;> cases b.getLsbD 0
  · rfl
  · exact BitVec.xor_assoc _ _ _
  · change a >>> 1 ^^^ b >>> 1 ^^^ poly = a >>> 1 ^^^ poly ^^^ b >>> 1
    rw [BitVec.xor_assoc, BitVec.xor_comm (b >>> 1), ← BitVec.xor_assoc]
  · change a >>> 1 ^^^ b >>> 1 = a >>> 1 ^^^ poly ^^^ (b >>> 1 ^^^ poly)
    rw [BitVec.xor_comm (b >>> 1) poly, BitVec.xor_assoc (a >>> 1) poly,
      ← BitVec.xor_assoc poly poly, BitVec.xor_self, BitVec.zero_xor]

theorem iterate_shiftStep_xor (poly : BitVec w) (count : ℕ) (a b : BitVec w) :
    (shiftStep poly)^[count] (a ^^^ b) =
      (shiftStep poly)^[count] a ^^^ (shiftStep poly)^[count] b := by
  induction count generalizing a b with
  | zero => rfl
  | succ count ih =>
    rw [Function.iterate_succ_apply, Function.iterate_succ_apply, Function.iterate_succ_apply,
      shiftStep_xor, ih]

/-- While the low bits are clear the remainder only moves down. -/
theorem iterate_shiftStep_high (poly : BitVec w) (count : ℕ) {c : BitVec w}
    (hclear : ∀ i < count, c.getLsbD i = false) : (shiftStep poly)^[count] c = c >>> count := by
  induction count generalizing c with
  | zero => exact (BitVec.ushiftRight_zero c).symm
  | succ count ih =>
    have hstep : shiftStep poly c = c >>> 1 := by
      rw [shiftStep, hclear 0 (Nat.succ_pos count)]
      rfl
    rw [Function.iterate_succ_apply, hstep, ih, ← BitVec.shiftRight_add, Nat.add_comm]
    intro i hi
    rw [BitVec.getLsbD_ushiftRight]
    exact hclear (1 + i) (by omega)

/-- With the highest bit in the polynomial no shift forgets a remainder. -/
theorem shiftStep_injective (hpoly : poly.msb = true) : Function.Injective (shiftStep poly) := by
  intro a b h
  have hmsb : ∀ c : BitVec w, (shiftStep poly c).msb = c.getLsbD 0 := by
    intro c
    rw [shiftStep]
    cases hbit : c.getLsbD 0 <;> simp [hpoly, BitVec.msb_ushiftRight]
  have hlow : a.getLsbD 0 = b.getLsbD 0 := by rw [← hmsb a, ← hmsb b, h]
  have hhigh : a >>> 1 = b >>> 1 := by
    rw [shiftStep, shiftStep, hlow] at h
    cases hbit : b.getLsbD 0 with
    | false => rwa [hbit] at h
    | true =>
      rw [hbit] at h
      exact (BitVec.xor_left_inj poly).mp h
  ext i hi
  rw [← BitVec.getLsbD_eq_getElem, ← BitVec.getLsbD_eq_getElem]
  cases i with
  | zero => exact hlow
  | succ i =>
    have hbit := congrArg (fun c => c.getLsbD i) hhigh
    simp only [BitVec.getLsbD_ushiftRight] at hbit
    rwa [Nat.add_comm]

end


/-! ## The checksum as the source computes it -/

def crc32Poly : BitVec 32 := 0x04c11db7

/-- The low `count` bits the other way round. -/
def reflect (val : BitVec 32) (count : ℕ) : BitVec 32 :=
  ((List.range' 1 count).foldl (fun (state : BitVec 32 × BitVec 32) i =>
    (state.1 >>> 1, if state.1.getLsbD 0 then state.2 ||| (1 <<< (count - i)) else state.2))
    (val, 0)).2

/-- An entry of `_crc32Table`. -/
def crc32Table (i : ℕ) : BitVec 32 :=
  reflect ((List.range 8).foldl (fun entry _ =>
    (entry <<< 1) ^^^ (if entry &&& (1 <<< 31) ≠ 0 then crc32Poly else 0))
    (reflect (BitVec.ofNat 32 i) 8 <<< 24)) 32

def crc32Byte (crc : BitVec 32) (byte : UInt8) : BitVec 32 :=
  (crc >>> 8) ^^^ crc32Table ((crc &&& (0xFF : BitVec 32)) ^^^ BitVec.ofNat 32 byte.toNat).toNat

def hashCrc32 (data : List UInt8) : BitVec 32 := data.foldl crc32Byte 0xffffffff ^^^ 0xffffffff

/-! ## The table -/

def crc32Reversed : BitVec 32 := 0xedb88320

theorem crc32Table_eq : ∀ i : Fin 256,
    crc32Table i = (shiftStep crc32Reversed)^[8] (BitVec.ofNat 32 i) := by
  decide +kernel

theorem lowByte_bit : ∀ i : Fin 32, (0xFF : BitVec 32).getLsbD i = decide (i.val < 8) := by
  decide

/-- The bits of a remainder that the table is asked for, and those above. -/
theorem split_low (c : BitVec 32) : c = (c &&& (0xFF : BitVec 32)) ^^^ ((c >>> 8) <<< 8) := by
  apply BitVec.eq_of_getLsbD_eq
  intro i hi
  rw [BitVec.getLsbD_xor, BitVec.getLsbD_and, lowByte_bit ⟨i, hi⟩, BitVec.getLsbD_shiftLeft,
    BitVec.getLsbD_ushiftRight]
  by_cases hlow : i < 8
  · simp [hlow]
  · simp [hlow, hi, Nat.add_sub_of_le (not_lt.mp hlow)]

theorem high_bits (c : BitVec 32) : (∀ i < 8, ((c >>> 8) <<< 8).getLsbD i = false) ∧
    ((c >>> 8) <<< 8) >>> 8 = c >>> 8 := by
  constructor
  · intro i hi
    simp [hi]
  · ext i hi
    rw [BitVec.getElem_ushiftRight, BitVec.getLsbD_shiftLeft, BitVec.getLsbD_ushiftRight,
      BitVec.getElem_ushiftRight, Nat.add_sub_cancel_left]
    by_cases hlt : 8 + i < 32
    · simp [hlt]
    · simp [hlt, BitVec.getLsbD_of_ge c (8 + i) (not_lt.mp hlt)]

theorem lowByte_xor_lt (crc : BitVec 32) (byte : UInt8) :
    ((crc &&& (0xFF : BitVec 32)) ^^^ BitVec.ofNat 32 byte.toNat).toNat < 256 := by
  have hbyte := byte.toNat_lt
  rw [BitVec.toNat_xor, BitVec.toNat_and, BitVec.toNat_ofNat, Nat.mod_eq_of_lt (by omega)]
  exact Nat.xor_lt_two_pow (n := 8) (Nat.lt_succ_of_le Nat.and_le_right) hbyte

/-- A byte from the table is eight shifts. -/
theorem crc32Byte_eq (crc : BitVec 32) (byte : UInt8) : crc32Byte crc byte =
    (shiftStep crc32Reversed)^[8] (crc ^^^ BitVec.ofNat 32 byte.toNat) := by
  obtain ⟨hclear, hdown⟩ := high_bits crc
  have hentry := crc32Table_eq ⟨_, lowByte_xor_lt crc byte⟩
  rw [BitVec.ofNat_toNat, BitVec.setWidth_eq] at hentry
  calc crc32Byte crc byte
      = ((crc >>> 8) <<< 8) >>> 8 ^^^ (shiftStep crc32Reversed)^[8]
          ((crc &&& (0xFF : BitVec 32)) ^^^ BitVec.ofNat 32 byte.toNat) := by
        rw [crc32Byte, hentry, hdown]
    _ = (shiftStep crc32Reversed)^[8] (((crc >>> 8) <<< 8) ^^^
          ((crc &&& (0xFF : BitVec 32)) ^^^ BitVec.ofNat 32 byte.toNat)) := by
        rw [iterate_shiftStep_xor crc32Reversed 8 ((crc >>> 8) <<< 8),
          iterate_shiftStep_high crc32Reversed 8 hclear]
    _ = (shiftStep crc32Reversed)^[8] (crc ^^^ BitVec.ofNat 32 byte.toNat) := by
        rw [← BitVec.xor_assoc, BitVec.xor_comm ((crc >>> 8) <<< 8), ← split_low crc]

/-- The table computes the remainder bit by bit. -/
theorem hashCrc32_bitwise (data : List UInt8) : hashCrc32 data =
    ~~~(data.foldl (fun crc byte =>
      (shiftStep crc32Reversed)^[8] (crc ^^^ BitVec.ofNat 32 byte.toNat)) (BitVec.allOnes 32)) := by
  have hstep : crc32Byte = fun crc byte =>
      (shiftStep crc32Reversed)^[8] (crc ^^^ BitVec.ofNat 32 byte.toNat) := by
    funext crc byte
    exact crc32Byte_eq crc byte
  rw [hashCrc32, hstep]
  exact BitVec.xor_allOnes

/-! ## Data that differ in a few bytes -/

/-- A byte and a number above it share no bit. -/
theorem ofNat_byte_below {b : ℕ} (hbyte : b < 2 ^ 8) (m : ℕ) : BitVec.ofNat 32 (b + 256 * m) =
    BitVec.ofNat 32 b ^^^ BitVec.ofNat 32 m <<< 8 := by
  apply BitVec.eq_of_getLsbD_eq
  intro i hi
  rw [BitVec.getLsbD_xor, BitVec.getLsbD_shiftLeft, BitVec.getLsbD_ofNat, BitVec.getLsbD_ofNat,
    BitVec.getLsbD_ofNat, show b + 256 * m = 2 ^ 8 * m + b by omega,
    Nat.testBit_two_pow_mul_add m hbyte]
  by_cases hlow : i < 8
  · simp [hlow, hi]
  · have hnone : b.testBit i = false := Nat.testBit_lt_two_pow
      (lt_of_lt_of_le hbyte (Nat.pow_le_pow_right (by omega) (by omega)))
    have hbelow : i - 8 < 32 := by omega
    simp [hlow, hi, hnone, hbelow]

theorem shiftRight_shiftLeft_byte {m : ℕ} (hlt : m < 2 ^ 24) :
    (BitVec.ofNat 32 m <<< 8) >>> 8 = BitVec.ofNat 32 m := by
  apply BitVec.eq_of_getLsbD_eq
  intro i hi
  rw [BitVec.getLsbD_ushiftRight, BitVec.getLsbD_shiftLeft, BitVec.getLsbD_ofNat,
    BitVec.getLsbD_ofNat, Nat.add_sub_cancel_left]
  by_cases hfits : 8 + i < 32
  · simp [hfits, hi]
  · have hnone : m.testBit i = false := Nat.testBit_lt_two_pow
      (lt_of_lt_of_le hlt (Nat.pow_le_pow_right (by omega) (by omega)))
    simp [hnone]

/-- No byte forgets the remainder before it. -/
theorem foldl_crc32Byte_injective (after : List UInt8) :
    Function.Injective fun crc => after.foldl crc32Byte crc := by
  have hmsb : crc32Reversed.msb = true := by decide
  have hshift := (shiftStep_injective hmsb).iterate 8
  induction after with
  | nil => exact Function.injective_id
  | cons byte after ih =>
    intro a b h
    have hbyte : crc32Byte a byte = crc32Byte b byte := ih h
    rw [crc32Byte_eq, crc32Byte_eq] at hbyte
    exact (BitVec.xor_left_inj _).mp (hshift hbyte)

/-- Up to four bytes are shifted in as one number. -/
theorem foldl_crc32Byte (crc : BitVec 32) {bytes : List UInt8} (hshort : bytes.length ≤ 4) :
    bytes.foldl crc32Byte crc = (shiftStep crc32Reversed)^[8 * bytes.length]
      (crc ^^^ BitVec.ofNat 32 (leNat bytes)) := by
  induction bytes generalizing crc with
  | nil => exact (BitVec.xor_zero).symm
  | cons byte bytes ih =>
    rw [List.length_cons] at hshort
    have hlt : leNat bytes < 2 ^ 24 := by
      have hpow : (256 : ℕ) ^ bytes.length ≤ 256 ^ 3 := Nat.pow_le_pow_right (by omega) (by omega)
      have := leNat_lt bytes
      omega
    have hbyte := byte.toNat_lt
    -- The number of the bytes behind stands above the first byte.
    have hsplit : BitVec.ofNat 32 (leNat (byte :: bytes)) =
        BitVec.ofNat 32 byte.toNat ^^^ BitVec.ofNat 32 (leNat bytes) <<< 8 :=
      ofNat_byte_below hbyte _
    have hclear : ∀ i < 8, (BitVec.ofNat 32 (leNat bytes) <<< 8).getLsbD i = false := by
      intro i hi
      simp [hi]
    have hdown : (BitVec.ofNat 32 (leNat bytes) <<< 8) >>> 8 = BitVec.ofNat 32 (leNat bytes) :=
      shiftRight_shiftLeft_byte hlt
    rw [List.foldl_cons, ih _ (by omega), crc32Byte_eq, List.length_cons, Nat.mul_succ,
      Function.iterate_add_apply, hsplit, ← BitVec.xor_assoc,
      iterate_shiftStep_xor crc32Reversed 8 _ (BitVec.ofNat 32 (leNat bytes) <<< 8),
      iterate_shiftStep_high crc32Reversed 8 hclear, hdown]

/-- Data that differ in up to four bytes in a row have different checksums. -/
theorem hashCrc32_burst (before x y after : List UInt8) (hlength : x.length = y.length)
    (hshort : x.length ≤ 4) :
    hashCrc32 (before ++ x ++ after) = hashCrc32 (before ++ y ++ after) ↔ x = y := by
  constructor
  · intro h
    have hcrc : (before ++ x ++ after).foldl crc32Byte 0xffffffff =
        (before ++ y ++ after).foldl crc32Byte 0xffffffff := (BitVec.xor_left_inj _).mp h
    rw [List.foldl_append, List.foldl_append, List.foldl_append, List.foldl_append] at hcrc
    have hmiddle := foldl_crc32Byte_injective after hcrc
    have hshort' : y.length ≤ 4 := hlength ▸ hshort
    simp only [foldl_crc32Byte _ hshort, foldl_crc32Byte _ hshort', ← hlength] at hmiddle
    have hmsb : crc32Reversed.msb = true := by decide
    have hnumber := (BitVec.xor_right_inj _).mp ((shiftStep_injective hmsb).iterate _ hmiddle)
    have hfits : ∀ z : List UInt8, z.length ≤ 4 → (BitVec.ofNat 32 (leNat z)).toNat = leNat z := by
      intro z hz
      have hpow : (256 : ℕ) ^ z.length ≤ 256 ^ 4 := Nat.pow_le_pow_right (by omega) hz
      have := leNat_lt z
      exact Nat.mod_eq_of_lt (by omega)
    have hnat : leNat x = leNat y := by
      rw [← hfits x hshort, ← hfits y hshort', hnumber]
    rw [← leBytes_leNat x, ← leBytes_leNat y, hlength, hnat]
  · intro h
    rw [h]

theorem hashCrc32_burst_byte :
    hashCrc32 ([7] ++ [1] ++ [9]) ≠ hashCrc32 ([7] ++ [2] ++ [9]) :=
  fun h => absurd ((hashCrc32_burst [7] [1] [2] [9] rfl (by decide)).mp h) (by decide)

end Bettergram.Core
