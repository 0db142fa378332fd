import Bettergram.Mtproto.CoreTypes

/-! # Reading back what was written

A code is lawful when it appends as many bytes as it says, reads its own
primes back whatever follows, and notices when some of them are missing. Boxes
and vectors of lawful codes are lawful.
-/

namespace Bettergram.Mtproto
open Foundation

variable {α : Type}

structure Codec.Lawful (c : Codec α) (fits : α → Prop) : Prop where
  append : ∀ v buffer, c.write v buffer = buffer ++ c.write v []
  length : ∀ v, fits v → c.innerLength v = UInt32.ofNat (4 * (c.write v []).length)
  read : ∀ v, fits v → ∀ before after,
    c.read (before ++ (c.write v [] ++ after)) before.length c.cons =
      .ok (v, before.length + (c.write v []).length)
  truncated : ∀ v, fits v → ∀ before n, n < (c.write v []).length →
    c.read (before ++ (c.write v []).take n) before.length c.cons = .error .insufficient

/-! ## Fetching -/

@[simp] theorem fetch_append (before rest : List α) (i : ℕ) :
    fetch (before ++ rest) (before.length + i) = fetch rest i := by
  simp only [fetch, List.getElem?_append_right (Nat.le_add_right _ _), Nat.add_sub_cancel_left]

@[simp] theorem fetch_append_zero (before rest : List α) :
    fetch (before ++ rest) before.length = fetch rest 0 :=
  fetch_append before rest 0

@[simp] theorem fetch_cons_zero (x : α) (xs : List α) : fetch (x :: xs) 0 = .ok x := rfl

@[simp] theorem fetch_cons_succ (x : α) (xs : List α) (i : ℕ) :
    fetch (x :: xs) (i + 1) = fetch xs i := by
  simp only [fetch, List.getElem?_cons_succ]

/-! ## Numbers -/

/-- A code of one prime. -/
theorem lawful_of_prime {c : Codec α} {prime : α → Int32} (value : Int32 → α)
    (hlength : ∀ v, c.innerLength v = 4) (hwrite : ∀ v buffer, c.write v buffer = buffer ++ [prime v])
    (hread : ∀ data start, c.read data start c.cons = if start + 1 > data.length
      then .error .insufficient else (fetch data start).map fun p => (value p, start + 1))
    (hvalue : ∀ v, value (prime v) = v) : c.Lawful fun _ => True where
  append v buffer := by rw [hwrite, hwrite, List.nil_append]
  length v _ := by rw [hlength, hwrite]; rfl
  read v _ before after := by
    rw [hread, hwrite, if_neg (by simp)]
    simp [Except.map, hvalue]
  truncated v _ before n hn := by
    rw [hwrite] at hn ⊢
    have hn₀ : n = 0 := by simpa using hn
    rw [hread, if_pos (by simp [hn₀])]

theorem MTPint.lawful : MTPint.codec.Lawful fun _ => True :=
  lawful_of_prime id (fun _ => rfl) (fun _ _ => rfl) (fun _ _ => rfl) fun _ => rfl

theorem MTPflags.lawful : MTPflags.codec.Lawful fun _ => True :=
  lawful_of_prime Int32.toUInt32 (fun _ => rfl) (fun _ _ => rfl) (fun _ _ => rfl) fun _ => rfl

def longPrimes (v : UInt64) : List Int32 :=
  [(v &&& 0xFFFFFFFF).toUInt32.toInt32, (v >>> 32).toUInt32.toInt32]

theorem writeLong_eq (v : UInt64) (buffer : List Int32) :
    writeLong v buffer = buffer ++ longPrimes v := by
  rw [writeLong, List.append_assoc]
  rfl

theorem joined_halves (v : UInt64) :
    (v &&& 0xFFFFFFFF).toUInt32.toUInt64 ||| (v >>> 32).toUInt32.toUInt64 <<< 32 = v := by
  apply UInt64.toNat_inj.mp
  have hlt := v.toNat_lt
  have hmask : (0xFFFFFFFF : UInt64).toNat = 2 ^ 32 - 1 := rfl
  have hshift : (32 : UInt64).toNat % 64 = 32 := rfl
  simp only [UInt64.toNat_or, UInt64.toNat_shiftLeft, UInt32.toNat_toUInt64, UInt64.toNat_toUInt32,
    UInt64.toNat_and, UInt64.toNat_shiftRight, hmask, hshift, Nat.and_two_pow_sub_one_eq_mod,
    Nat.mod_mod, Nat.shiftRight_eq_div_pow]
  rw [Nat.or_comm, Nat.mod_eq_of_lt (by rw [Nat.shiftLeft_eq]; omega),
    ← Nat.shiftLeft_add_eq_or_of_lt (Nat.mod_lt _ (by decide)), Nat.shiftLeft_eq]
  omega

theorem fetchLong_append (v : UInt64) (before after : List Int32) :
    fetchLong (before ++ (longPrimes v ++ after)) before.length = .ok v := by
  simp only [fetchLong, longPrimes, List.cons_append, List.nil_append, fetch_append_zero,
    fetch_append, fetch_cons_zero, fetch_cons_succ]
  exact congrArg Except.ok (joined_halves v)

theorem lawful_longCodec (type : UInt32) (name : String) :
    (longCodec type name).Lawful fun _ => True where
  append v buffer := by simp only [longCodec, writeLong_eq, List.nil_append]
  length v _ := rfl
  read v _ before after := by
    simp only [longCodec, writeLong_eq, List.nil_append, readLong]
    rw [if_neg (by simp [longPrimes]), if_neg (by simp), fetchLong_append]
    rfl
  truncated v _ before n hn := by
    simp only [longCodec, writeLong_eq, List.nil_append, readLong] at hn ⊢
    apply if_pos
    simp [longPrimes] at hn ⊢
    omega

theorem MTPint128.write_eq (v : MTPint128) (buffer : List Int32) :
    MTPint128.codec.write v buffer = buffer ++ (longPrimes v.l ++ longPrimes v.h) := by
  simp only [MTPint128.codec, writeLong_eq, List.append_assoc]

theorem MTPint128.read_append (v : MTPint128) (before after : List Int32) :
    MTPint128.read (before ++ (longPrimes v.l ++ (longPrimes v.h ++ after))) before.length
      mtpc_int128 = .ok (v, before.length + 4) := by
  have hhigh : fetchLong (before ++ (longPrimes v.l ++ (longPrimes v.h ++ after)))
      (before.length + 2) = .ok v.h := by
    have hplace : before.length + 2 = (before ++ longPrimes v.l).length := by simp [longPrimes]
    rw [hplace, ← List.append_assoc, fetchLong_append]
  rw [MTPint128.read, if_neg (by simp [longPrimes]), if_neg (by simp), fetchLong_append,
    hhigh]
  rfl

theorem MTPint128.read_short {data : List Int32} {start : ℕ} (h : data.length < start + 4) :
    MTPint128.read data start mtpc_int128 = .error .insufficient := by
  rw [MTPint128.read, if_pos h]

theorem MTPint128.lawful : MTPint128.codec.Lawful fun _ => True where
  append v buffer := by simp only [write_eq, List.nil_append]
  length v _ := rfl
  read v _ before after := by
    rw [write_eq, List.nil_append, List.append_assoc]
    exact read_append v before after
  truncated v _ before n hn := by
    rw [write_eq, List.nil_append] at hn ⊢
    apply read_short
    simp [longPrimes] at hn ⊢
    omega

theorem MTPint256.lawful : MTPint256.codec.Lawful fun _ => True where
  append v buffer := by
    simp only [MTPint256.codec, MTPint128.write_eq, List.nil_append, List.append_assoc]
  length v _ := rfl
  read v _ before after := by
    have hlow := MTPint128.read_append v.l before (longPrimes v.h.l ++ (longPrimes v.h.h ++ after))
    have hhigh := MTPint128.read_append v.h (before ++ (longPrimes v.l.l ++ longPrimes v.l.h)) after
    have hplace : (before ++ (longPrimes v.l.l ++ longPrimes v.l.h)).length = before.length + 4 := by
      simp [longPrimes]
    rw [hplace] at hhigh
    simp only [List.append_assoc] at hlow hhigh
    simp only [MTPint256.codec, MTPint128.write_eq, List.nil_append, List.append_assoc]
    rw [MTPint256.read, if_neg (by simp), hlow]
    change (MTPint128.read _ _ _ >>= _) = _
    rw [hhigh]
    rfl
  truncated v _ before n hn := by
    simp only [MTPint256.codec, MTPint128.write_eq, List.nil_append, List.append_assoc] at hn ⊢
    rw [MTPint256.read, if_neg (by simp)]
    by_cases hshort : n < 4
    · rw [MTPint128.read_short (by simp; omega)]
      rfl
    · have hlength : (longPrimes v.l.l ++ longPrimes v.l.h).length = 4 := rfl
      have hsplit : (longPrimes v.l.l ++ (longPrimes v.l.h ++ (longPrimes v.h.l ++
          longPrimes v.h.h))).take n = longPrimes v.l.l ++ (longPrimes v.l.h ++
            (longPrimes v.h.l ++ longPrimes v.h.h).take (n - 4)) := by
        rw [← List.append_assoc, List.take_append, hlength, List.take_of_length_le (by omega),
          List.append_assoc]
      rw [hsplit, MTPint128.read_append]
      change (MTPint128.read _ _ _ >>= _) = _
      rw [MTPint128.read_short (by simp [longPrimes] at hn ⊢; omega)]
      rfl

/-! ## Vectors -/

namespace MTPvector

variable {item : Codec α} {fits : α → Prop}

/-- The primes of the items, one after the other. -/
def body (item : Codec α) (v : List α) : List Int32 := v.flatMap fun x => item.write x []

theorem body_cons (x : α) (v : List α) : body item (x :: v) = item.write x [] ++ body item v :=
  List.flatMap_cons

theorem foldl_write (h : item.Lawful fits) (v : List α) (buffer : List Int32) :
    v.foldl (fun buffer x => item.write x buffer) buffer = buffer ++ body item v := by
  induction v generalizing buffer with
  | nil => exact (List.append_nil buffer).symm
  | cons x v ih => rw [List.foldl_cons, ih, h.append, body_cons, List.append_assoc]

theorem foldl_innerLength (h : item.Lawful fits) {v : List α} (hfits : ∀ x ∈ v, fits x) (n : ℕ) :
    v.foldl (fun result x => result + item.innerLength x) (UInt32.ofNat n) =
      UInt32.ofNat (n + 4 * (body item v).length) := by
  induction v generalizing n with
  | nil => rfl
  | cons x v ih =>
    rw [List.foldl_cons, h.length x (hfits x (by simp)), ← UInt32.ofNat_add,
      ih (fun y hy => hfits y (by simp [hy])), body_cons, List.length_append]
    congr 1
    omega

theorem readItems_append (h : item.Lawful fits) {v : List α} (hfits : ∀ x ∈ v, fits x)
    (before after : List Int32) :
    readItems item (before ++ (body item v ++ after)) v.length before.length =
      .ok (v, before.length + (body item v).length) := by
  induction v generalizing before with
  | nil => rfl
  | cons x v ih =>
    have hread := h.read x (hfits x (by simp)) before (body item v ++ after)
    have hrest := ih (fun y hy => hfits y (by simp [hy])) (before ++ item.write x [])
    rw [List.length_append, List.append_assoc] at hrest
    rw [body_cons, List.length_cons, readItems, List.append_assoc, hread]
    change (readItems item _ _ _ >>= _) = _
    rw [hrest, List.length_append, Nat.add_assoc]
    rfl

theorem readItems_truncated (h : item.Lawful fits) {v : List α} (hfits : ∀ x ∈ v, fits x)
    (before : List Int32) {n : ℕ} (hn : n < (body item v).length) :
    readItems item (before ++ (body item v).take n) v.length before.length =
      .error .insufficient := by
  induction v generalizing before n with
  | nil => simp [body] at hn
  | cons x v ih =>
    rw [body_cons, List.length_append] at hn
    rw [body_cons, List.length_cons, readItems]
    by_cases hshort : n < (item.write x []).length
    · -- the first item is cut
      rw [List.take_append_of_le_length hshort.le, h.truncated x (hfits x (by simp)) before n hshort]
      rfl
    · have hread := h.read x (hfits x (by simp)) before
        ((body item v).take (n - (item.write x []).length))
      have hrest := ih (fun y hy => hfits y (by simp [hy])) (before ++ item.write x [])
        (n := n - (item.write x []).length) (by omega)
      rw [List.length_append, List.append_assoc] at hrest
      rw [List.take_append, List.take_of_length_le (not_lt.mp hshort), hread]
      change (readItems item _ _ _ >>= _) = _
      rw [hrest]
      rfl

theorem write_eq (h : item.Lawful fits) (v : List α) (buffer : List Int32) :
    (codec item).write v buffer = buffer ++ (Int32.ofNat v.length :: body item v) := by
  simp only [codec, foldl_write h, List.append_assoc, List.singleton_append]

theorem toNat_ofNat {n : ℕ} (h : n < 2 ^ 31) : (Int32.ofNat n).toUInt32.toNat = n := by
  have hbits : (Int32.ofNat n).toUInt32 = UInt32.ofNat n := rfl
  rw [hbits, UInt32.toNat_ofNat', Nat.mod_eq_of_lt (by omega)]

theorem lawful (h : item.Lawful fits) :
    (codec item).Lawful fun v => v.length < 2 ^ 31 ∧ ∀ x ∈ v, fits x where
  append v buffer := by rw [write_eq h, write_eq h, List.nil_append]
  length v hfits := by
    have hlength := foldl_innerLength h hfits.2 4
    rw [write_eq h, List.nil_append, List.length_cons]
    change v.foldl _ (UInt32.ofNat 4) = _
    rw [hlength]
    congr 1
    omega
  read v hfits before after := by
    have hitems := readItems_append h hfits.2 (before ++ [Int32.ofNat v.length]) after
    rw [List.length_append, List.append_assoc, List.singleton_append] at hitems
    rw [write_eq h, List.nil_append, List.cons_append, List.length_cons]
    change MTPvector.read item _ _ mtpc_vector = _
    rw [MTPvector.read, if_neg (by simp), if_neg (by simp), fetch_append_zero, fetch_cons_zero]
    change readItems item _ (Int32.ofNat v.length).toUInt32.toNat _ = _
    rw [toNat_ofNat hfits.1]
    refine hitems.trans ?_
    rw [List.length_singleton, Nat.add_assoc, Nat.add_comm 1]
  truncated v hfits before n hn := by
    rw [write_eq h, List.nil_append] at hn ⊢
    change MTPvector.read item _ _ mtpc_vector = _
    cases n with
    | zero => rw [MTPvector.read, if_pos (by simp)]
    | succ n =>
      have hitems := readItems_truncated h hfits.2 (before ++ [Int32.ofNat v.length])
        (n := n) (by simpa using hn)
      rw [List.length_append, List.append_assoc, List.singleton_append] at hitems
      rw [List.take_succ_cons, MTPvector.read, if_neg (by simp), if_neg (by simp),
        fetch_append_zero, fetch_cons_zero]
      change readItems item _ (Int32.ofNat v.length).toUInt32.toNat _ = _
      rw [toNat_ofNat hfits.1]
      exact hitems

end MTPvector

/-! ## Boxes -/

theorem MTPBoxed.lawful {bare : Codec α} {fits : α → Prop} (h : bare.Lawful fits)
    (hcons : bare.cons = bare.type) : (MTPBoxed.codec bare).Lawful fits where
  append v buffer := by
    simp only [codec, List.nil_append]
    rw [h.append, h.append v [_], List.append_assoc]
  length v hfits := by
    simp only [codec, List.nil_append]
    rw [h.append v [_], h.length v hfits, List.length_append, List.length_singleton,
      Nat.mul_add, UInt32.ofNat_add]
    rfl
  read v hfits before after := by
    have hread := h.read v hfits (before ++ [bare.type.toInt32]) after
    rw [List.length_append, List.append_assoc, List.singleton_append] at hread
    simp only [codec, List.nil_append]
    rw [h.append v [_], List.singleton_append, List.cons_append, MTPBoxed.read,
      if_neg (by simp), fetch_append_zero, fetch_cons_zero]
    change bare.read _ _ bare.type.toInt32.toUInt32 = _
    rw [hcons] at hread
    rw [UInt32.toUInt32_toInt32]
    refine hread.trans ?_
    rw [List.length_singleton, List.length_cons, Nat.add_assoc, Nat.add_comm 1]
  truncated v hfits before n hn := by
    simp only [codec, List.nil_append] at hn ⊢
    rw [h.append v [_], List.singleton_append] at hn ⊢
    cases n with
    | zero => rw [MTPBoxed.read, if_pos (by simp)]
    | succ n =>
      have hread := h.truncated v hfits (before ++ [bare.type.toInt32]) n (by simpa using hn)
      rw [List.length_append, List.append_assoc, List.singleton_append] at hread
      rw [List.take_succ_cons, MTPBoxed.read, if_neg (by simp), fetch_append_zero, fetch_cons_zero]
      change bare.read _ _ bare.type.toInt32.toUInt32 = _
      rw [hcons] at hread
      rw [UInt32.toUInt32_toInt32]
      exact hread

end Bettergram.Mtproto
