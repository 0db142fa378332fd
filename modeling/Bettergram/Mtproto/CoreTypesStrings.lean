import Bettergram.Mtproto.CoreTypesRoundTrip

/-! # Strings, and all core types

A string takes its length, its bytes and zeros up to a whole number of primes.
Its length is computed three times over: for the size, to write and to read.
-/

namespace Bettergram.Mtproto
open Foundation

namespace MTPstring

/-! ## Sizes -/

theorem toNat_and_three (s : UInt32) : (s &&& 0x03).toNat = s.toNat % 4 := by
  have hmask : (0x03 : UInt32).toNat = 2 ^ 2 - 1 := rfl
  rw [UInt32.toNat_and, hmask, Nat.and_two_pow_sub_one_eq_mod]

theorem and_three_ne_zero (s : UInt32) : s &&& 0x03 ≠ 0 ↔ s.toNat % 4 ≠ 0 := by
  rw [← toNat_and_three, ne_eq, ← UInt32.toNat_inj]
  rfl

theorem toNat_shiftRight_two (s : UInt32) : (s >>> 2).toNat = s.toNat / 4 := by
  have hshift : (2 : UInt32).toNat % 32 = 2 := rfl
  rw [UInt32.toNat_shiftRight, hshift, Nat.shiftRight_eq_div_pow]

theorem toNat_add {a b : UInt32} (h : a.toNat + b.toNat < 2 ^ 32) :
    (a + b).toNat = a.toNat + b.toNat := by
  rw [UInt32.toNat_add, Nat.mod_eq_of_lt h]

theorem primes_eq {s : UInt32} (h : s.toNat < 2 ^ 31) : primes s = (s.toNat + 3) / 4 := by
  have hfour := toNat_shiftRight_two s
  unfold primes
  by_cases hzero : s.toNat % 4 = 0
  · rw [if_neg (by rw [and_three_ne_zero]; omega), toNat_add (by simp; omega), hfour]
    simp
    omega
  · rw [if_pos ((and_three_ne_zero s).mpr hzero), toNat_add (by simp; omega), hfour]
    simp
    omega

theorem rounded_eq {s : UInt32} (h : s.toNat < 2 ^ 31) :
    ((if s &&& 0x03 ≠ 0 then s + 4 else s) >>> 2).toNat = (s.toNat + 3) / 4 := by
  rw [toNat_shiftRight_two]
  by_cases hzero : s.toNat % 4 = 0
  · rw [if_neg (by rw [and_three_ne_zero]; omega)]
    omega
  · rw [if_pos ((and_three_ne_zero s).mpr hzero), toNat_add (by simp; omega)]
    simp
    omega

theorem filled_eq {s : UInt32} (h : s.toNat < 2 ^ 31) :
    (if s &&& 0x03 ≠ 0 then s + (4 - (s &&& 0x03)) else s) =
      UInt32.ofNat (4 * ((s.toNat + 3) / 4)) := by
  have hthree := toNat_and_three s
  apply UInt32.toNat_inj.mp
  rw [UInt32.toNat_ofNat', Nat.mod_eq_of_lt (by omega)]
  by_cases hzero : s.toNat % 4 = 0
  · rw [if_neg (by rw [and_three_ne_zero]; omega)]
    omega
  · have hfill : (4 - (s &&& 0x03)).toNat = 4 - s.toNat % 4 := by
      rw [UInt32.toNat_sub_of_le _ _ (by rw [UInt32.le_iff_toNat_le, hthree]; simp; omega), hthree]
      rfl
    rw [if_pos ((and_three_ne_zero s).mpr hzero), toNat_add (by omega), hfill]
    omega

variable {v : List UInt8}

theorem toNat_length (h : v.length < 2 ^ 24) : (UInt32.ofNat v.length).toNat = v.length := by
  rw [UInt32.toNat_ofNat', Nat.mod_eq_of_lt (by omega)]

theorem short_iff (h : v.length < 2 ^ 24) : UInt32.ofNat v.length < 254 ↔ v.length < 254 := by
  rw [UInt32.lt_iff_toNat_lt, toNat_length h]
  rfl

theorem length_head (l : UInt32) : (head l).length = if l < 254 then 1 else 4 := by
  unfold head
  split <;> rfl

/-- The bytes of a string with its length. -/
theorem toNat_size (h : v.length < 2 ^ 24) :
    (UInt32.ofNat v.length + if UInt32.ofNat v.length < 254 then 1 else 4).toNat =
      (head (UInt32.ofNat v.length) ++ v).length := by
  rw [List.length_append, length_head]
  split <;> rw [toNat_add (by rw [toNat_length h]; simp; omega), toNat_length h] <;> simp <;> omega

/-! ## Writing -/

/-- The primes a string takes. -/
def size (v : List UInt8) : ℕ := ((head (UInt32.ofNat v.length) ++ v).length + 3) / 4

def fill (v : List UInt8) : List UInt8 :=
  List.replicate (4 * size v - (head (UInt32.ofNat v.length) ++ v).length) 0

/-- The bytes of a string as they are written. -/
def padded (v : List UInt8) : List UInt8 := head (UInt32.ofNat v.length) ++ v ++ fill v

theorem length_padded (v : List UInt8) : (padded v).length = 4 * size v := by
  rw [padded, List.length_append, fill, List.length_replicate, size]
  omega

theorem head_lt (h : v.length < 2 ^ 24) : (head (UInt32.ofNat v.length) ++ v).length < 2 ^ 31 := by
  rw [List.length_append, length_head]
  split <;> omega

theorem write_eq (h : v.length < 2 ^ 24) (buffer : List Int32) :
    write v buffer = buffer ++ wordsOfBytes (padded v) := by
  have hsize := toNat_size h
  have hrounded := rounded_eq (by rw [hsize]; exact head_lt h)
  rw [hsize] at hrounded
  simp only [write]
  rw [hrounded, overwrite, List.take_zero, List.nil_append, Nat.zero_add, List.drop_replicate]
  rfl

theorem innerLength_eq (h : v.length < 2 ^ 24) : innerLength v = UInt32.ofNat (4 * size v) := by
  have hsize := toNat_size h
  have hfilled := filled_eq (by rw [hsize]; exact head_lt h)
  rw [hsize] at hfilled
  rw [size, ← hfilled, innerLength]
  by_cases hshort : UInt32.ofNat v.length < 254 <;> simp only [hshort, if_true, if_false]

/-! ## Reading -/

theorem toUInt32_toUInt8 {l : UInt32} (h : l < 254) : l.toUInt8.toUInt32 = l := by
  have hlt : l.toNat < 254 := UInt32.lt_iff_toNat_lt.mp h
  apply UInt32.toNat_inj.mp
  rw [UInt8.toNat_toUInt32, UInt32.toNat_toUInt8, Nat.mod_eq_of_lt (by omega)]

theorem joined_bytes {l : UInt32} (h : l.toNat < 2 ^ 24) :
    (l &&& 0xFF).toUInt8.toUInt32 + (((l >>> 8) &&& 0xFF).toUInt8.toUInt32 <<< 8) +
      (((l >>> 16) &&& 0xFF).toUInt8.toUInt32 <<< 16) = l := by
  have hmask : (0xFF : UInt32).toNat = 2 ^ 8 - 1 := rfl
  have height : (8 : UInt32).toNat % 32 = 8 := rfl
  have hsixteen : (16 : UInt32).toNat % 32 = 16 := rfl
  apply UInt32.toNat_inj.mp
  simp only [UInt32.toNat_add, UInt32.toNat_shiftLeft, UInt8.toNat_toUInt32, UInt32.toNat_toUInt8,
    UInt32.toNat_and, UInt32.toNat_shiftRight, hmask, height, hsixteen,
    Nat.and_two_pow_sub_one_eq_mod, Nat.mod_mod, Nat.shiftRight_eq_div_pow, Nat.shiftLeft_eq]
  omega

theorem readHead_append {l : UInt32} (h : l.toNat < 2 ^ 24) (rest : List UInt8) :
    readHead (head l ++ rest) =
      .ok (l, (head l).length, primes (l + if l < 254 then 1 else 4)) := by
  unfold head
  by_cases hshort : l < 254
  · have hfirst : l.toUInt8 ≠ 254 := by
      intro heq
      have hl := toUInt32_toUInt8 hshort
      rw [heq] at hl
      rw [← hl] at hshort
      exact absurd hshort (by decide)
    rw [if_pos hshort, if_pos hshort, readHead, List.singleton_append, fetch_cons_zero]
    change (if l.toUInt8 = 254 then _ else _) = _
    rw [if_neg hfirst, toUInt32_toUInt8 hshort]
    rfl
  · rw [if_neg hshort, if_neg hshort, readHead]
    simp only [List.cons_append, fetch_cons_zero, fetch_cons_succ]
    change Except.ok _ = _
    rw [joined_bytes h]
    rfl

theorem bytes_append (before after : List Int32) (v : List UInt8) (hdvd : 4 ∣ v.length) :
    (bytesOfWords (before ++ (wordsOfBytes v ++ after))).drop (4 * before.length) =
      v ++ bytesOfWords after := by
  rw [bytesOfWords_append, bytesOfWords_append, bytesOfWords_wordsOfBytes hdvd,
    List.drop_left' (length_bytesOfWords before)]

theorem moved_eq (h : v.length < 2 ^ 24) :
    primes (UInt32.ofNat v.length + if UInt32.ofNat v.length < 254 then 1 else 4) = size v := by
  have hsize := toNat_size h
  rw [primes_eq (by rw [hsize]; exact head_lt h), hsize, size]

/-- What `read` does with a buffer that starts with the head of a string. -/
theorem read_of_head (h : v.length < 2 ^ 24) {data : List Int32} {start : ℕ} {rest : List UInt8}
    (hlength : start + 1 ≤ data.length)
    (hbuf : (bytesOfWords data).drop (4 * start) = head (UInt32.ofNat v.length) ++ rest) :
    read data start mtpc_string = if start + size v > data.length then .error .insufficient
      else (fetchMany (head (UInt32.ofNat v.length) ++ rest)
        (head (UInt32.ofNat v.length)).length v.length).map fun v' => (v', start + size v) := by
  rw [read, if_neg (by omega), if_neg (by simp), hbuf]
  dsimp only
  rw [readHead_append (by rw [toNat_length h]; exact h), moved_eq h]
  change (if _ then _ else (fetchMany _ _ (UInt32.ofNat v.length).toNat).map _) = _
  rw [toNat_length h]

theorem dvd_length_padded (v : List UInt8) : 4 ∣ (padded v).length :=
  ⟨size v, length_padded v⟩

theorem length_words (v : List UInt8) : (wordsOfBytes (padded v)).length = size v := by
  have hwords := length_wordsOfBytes (dvd_length_padded v)
  rw [length_padded] at hwords
  omega

theorem lawful : codec.Lawful fun v => v.length < 2 ^ 24 where
  append v buffer := by simp [codec, write]
  length v h := by
    simp only [codec]
    rw [innerLength_eq h, write_eq h, List.nil_append, length_words]
  read v h before after := by
    have hpos : 0 < size v := by
      rw [size, List.length_append, length_head]
      split <;> omega
    have hbuf := bytes_append before after (padded v) (dvd_length_padded v)
    have hpadded : padded v ++ bytesOfWords after =
        head (UInt32.ofNat v.length) ++ (v ++ (fill v ++ bytesOfWords after)) := by
      rw [padded, List.append_assoc, List.append_assoc]
    rw [hpadded] at hbuf
    simp only [codec]
    rw [write_eq h, List.nil_append]
    rw [read_of_head h (by simp [length_words]; omega) hbuf, if_neg (by simp [length_words]),
      fetchMany, if_pos (by simp), List.drop_left' rfl, List.take_left' rfl, length_words]
    rfl
  truncated v h before n hn := by
    simp only [codec] at hn ⊢
    rw [write_eq h, List.nil_append, length_words] at hn
    rw [write_eq h, List.nil_append]
    cases n with
    | zero => rw [read, if_pos (by simp)]
    | succ n =>
      -- the head is in the first prime
      obtain ⟨rest, htake⟩ : ∃ rest, bytesOfWords ((wordsOfBytes (padded v)).take (n + 1)) =
          head (UInt32.ofNat v.length) ++ rest := by
        have hhead : (head (UInt32.ofNat v.length)).length ≤ 4 * (n + 1) := by
          rw [length_head]
          split <;> omega
        rw [take_bytesOfWords, bytesOfWords_wordsOfBytes (dvd_length_padded v), padded,
          List.append_assoc, List.take_append, List.take_of_length_le hhead]
        exact ⟨_, rfl⟩
      have hbuf : (bytesOfWords (before ++ (wordsOfBytes (padded v)).take (n + 1))).drop
          (4 * before.length) = head (UInt32.ofNat v.length) ++ rest := by
        rw [bytesOfWords_append, List.drop_left' (length_bytesOfWords before), htake]
      rw [read_of_head h (by simp [length_words]; omega) hbuf,
        if_pos (by simp [length_words]; omega)]

end MTPstring

namespace CoreType

theorem cons_bare (t : CoreType) : t.bare.cons = t.bare.type := by
  cases t with
  | vector boxed item => cases boxed <;> rfl
  | _ => rfl

theorem lawful_bare (t : CoreType) : t.bare.Lawful t.Fits := by
  induction t with
  | int => exact MTPint.lawful
  | long => exact lawful_longCodec _ _
  | int128 => exact MTPint128.lawful
  | int256 => exact MTPint256.lawful
  | double => exact lawful_longCodec _ _
  | string => exact MTPstring.lawful
  | flags => exact MTPflags.lawful
  | vector boxed item ih =>
    cases boxed with
    | false => exact MTPvector.lawful ih
    | true => exact MTPvector.lawful (MTPBoxed.lawful ih item.cons_bare)

theorem lawful (boxed : Bool) (t : CoreType) : (t.codec boxed).Lawful t.Fits := by
  cases boxed with
  | false => exact t.lawful_bare
  | true => exact MTPBoxed.lawful t.lawful_bare t.cons_bare

/-- Whatever the type, boxed or not: what is written is as long as it says and is read back, and
when a part of it is missing the reader notices before it gets to the end. The length is a
machine word. -/
theorem serialisation_round_trips (boxed : Bool) (t : CoreType) (v : t.Value) (hfits : t.Fits v) :
    let c := t.codec boxed
    let primes := c.write v []
    (∀ buffer, c.write v buffer = buffer ++ primes) ∧
      c.innerLength v = UInt32.ofNat (4 * primes.length) ∧
      (4 * primes.length < 2 ^ 32 → (c.innerLength v).toNat = 4 * primes.length) ∧
      (c.innerLength v).toNat % 4 = 0 ∧
      (∀ before after, c.read (before ++ (primes ++ after)) before.length c.cons =
        .ok (v, before.length + primes.length)) ∧
      ∀ before n, n < primes.length →
        c.read (before ++ primes.take n) before.length c.cons = .error .insufficient := by
  intro c primes
  have hlawful := t.lawful boxed
  have hlength : (c.innerLength v).toNat = 4 * primes.length % 2 ^ 32 := by
    rw [hlawful.length v hfits, UInt32.toNat_ofNat']
  refine ⟨hlawful.append v, hlawful.length v hfits, fun hlt => ?_, ?_, hlawful.read v hfits,
    hlawful.truncated v hfits⟩
  · rw [hlength, Nat.mod_eq_of_lt hlt]
  · rw [hlength]
    omega

/-- A sample of `serialisation_round_trips`: a boxed vector of boxed strings. -/
theorem serialisation_round_trips_strings :
    let t := CoreType.vector true .string
    let v : List (List UInt8) := [[], [1, 2, 3], [4]]
    let c := t.codec true
    let primes := c.write v []
    (∀ buffer, c.write v buffer = buffer ++ primes) ∧
      c.innerLength v = UInt32.ofNat (4 * primes.length) ∧
      (4 * primes.length < 2 ^ 32 → (c.innerLength v).toNat = 4 * primes.length) ∧
      (c.innerLength v).toNat % 4 = 0 ∧
      (∀ before after, c.read (before ++ (primes ++ after)) before.length c.cons =
        .ok (v, before.length + primes.length)) ∧
      ∀ before n, n < primes.length →
        c.read (before ++ primes.take n) before.length c.cons = .error .insufficient :=
  serialisation_round_trips true (.vector true .string) [[], [1, 2, 3], [4]]
    ⟨by decide, show ∀ x ∈ ([[], [1, 2, 3], [4]] : List (List UInt8)), x.length < 2 ^ 24 by decide⟩

example : (CoreType.string.codec false).write ([1, 2, 3] : List UInt8) [] = [0x03020103] := by
  decide

end CoreType

end Bettergram.Mtproto
