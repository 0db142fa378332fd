import Bettergram.Foundation.Blocks
import Bettergram.Foundation.LittleEndian
import Bettergram.Foundation.Overwrite

/-! # The MD5 of utils

`feed` counts the bits in two words, fills the block that is begun and
transforms whole blocks. The digest depends on the bytes only, not on the
pieces they came in, whatever a block does to the state.
-/

namespace Bettergram.Core

open Foundation

structure Md5State where
  a : UInt32
  b : UInt32
  c : UInt32
  d : UInt32
deriving DecidableEq

/-- What a block does to the state. -/
abbrev Compression := Md5State → List UInt8 → Md5State

def md5BlockSize : ℕ := 64

structure HashMd5 where
  buffer : List UInt8
  count0 : UInt32
  count1 : UInt32
  state : Md5State

/-- `_md5_encode` of some words. -/
def md5Encode (words : List UInt32) : List UInt8 := words.flatMap fun w => leBytes 4 w.toNat

/-- Word `i` of `_md5_decode`. -/
def md5Decode (block : List UInt8) (i : ℕ) : UInt32 :=
  UInt32.ofNat (leNat ((block.drop (4 * i)).take 4))

def md5RotateLeft (x s : UInt32) : UInt32 := x <<< s ||| x >>> (32 - s)

def md5F (x y z : UInt32) : UInt32 := (x &&& y) ||| (~~~x &&& z)

def md5G (x y z : UInt32) : UInt32 := (x &&& z) ||| (y &&& ~~~z)

def md5H (x y z : UInt32) : UInt32 := x ^^^ y ^^^ z

def md5I (x y z : UInt32) : UInt32 := y ^^^ (x ||| ~~~z)

/-- `_md5_FF` and its like: the first word is replaced, and the next line of the
transform names the words one place on. -/
def md5Line (f : UInt32 → UInt32 → UInt32 → UInt32) (block : List UInt8) (s : Md5State)
    (line : ℕ × UInt32 × UInt32) : Md5State :=
  ⟨s.d, md5RotateLeft (s.a + f s.b s.c s.d + md5Decode block line.1 + line.2.2) line.2.1 + s.b,
    s.b, s.c⟩

def md5LinesFF : List (ℕ × UInt32 × UInt32) :=
  [(0, 7, 0xd76aa478), (1, 12, 0xe8c7b756), (2, 17, 0x242070db), (3, 22, 0xc1bdceee),
    (4, 7, 0xf57c0faf), (5, 12, 0x4787c62a), (6, 17, 0xa8304613), (7, 22, 0xfd469501),
    (8, 7, 0x698098d8), (9, 12, 0x8b44f7af), (10, 17, 0xffff5bb1), (11, 22, 0x895cd7be),
    (12, 7, 0x6b901122), (13, 12, 0xfd987193), (14, 17, 0xa679438e), (15, 22, 0x49b40821)]

def md5LinesGG : List (ℕ × UInt32 × UInt32) :=
  [(1, 5, 0xf61e2562), (6, 9, 0xc040b340), (11, 14, 0x265e5a51), (0, 20, 0xe9b6c7aa),
    (5, 5, 0xd62f105d), (10, 9, 0x2441453), (15, 14, 0xd8a1e681), (4, 20, 0xe7d3fbc8),
    (9, 5, 0x21e1cde6), (14, 9, 0xc33707d6), (3, 14, 0xf4d50d87), (8, 20, 0x455a14ed),
    (13, 5, 0xa9e3e905), (2, 9, 0xfcefa3f8), (7, 14, 0x676f02d9), (12, 20, 0x8d2a4c8a)]

def md5LinesHH : List (ℕ × UInt32 × UInt32) :=
  [(5, 4, 0xfffa3942), (8, 11, 0x8771f681), (11, 16, 0x6d9d6122), (14, 23, 0xfde5380c),
    (1, 4, 0xa4beea44), (4, 11, 0x4bdecfa9), (7, 16, 0xf6bb4b60), (10, 23, 0xbebfbc70),
    (13, 4, 0x289b7ec6), (0, 11, 0xeaa127fa), (3, 16, 0xd4ef3085), (6, 23, 0x4881d05),
    (9, 4, 0xd9d4d039), (12, 11, 0xe6db99e5), (15, 16, 0x1fa27cf8), (2, 23, 0xc4ac5665)]

def md5LinesII : List (ℕ × UInt32 × UInt32) :=
  [(0, 6, 0xf4292244), (7, 10, 0x432aff97), (14, 15, 0xab9423a7), (5, 21, 0xfc93a039),
    (12, 6, 0x655b59c3), (3, 10, 0x8f0ccc92), (10, 15, 0xffeff47d), (1, 21, 0x85845dd1),
    (8, 6, 0x6fa87e4f), (15, 10, 0xfe2ce6e0), (6, 15, 0xa3014314), (13, 21, 0x4e0811a1),
    (4, 6, 0xf7537e82), (11, 10, 0xbd3af235), (2, 15, 0x2ad7d2bb), (9, 21, 0xeb86d391)]

/-- `HashMd5::transform` of one block. -/
def md5Transform (s : Md5State) (block : List UInt8) : Md5State :=
  let ff := md5LinesFF.foldl (md5Line md5F block) s
  let gg := md5LinesGG.foldl (md5Line md5G block) ff
  let hh := md5LinesHH.foldl (md5Line md5H block) gg
  let ii := md5LinesII.foldl (md5Line md5I block) hh
  ⟨s.a + ii.a, s.b + ii.b, s.c + ii.c, s.d + ii.d⟩

namespace HashMd5

def init : HashMd5 where
  buffer := List.replicate md5BlockSize 0
  count0 := 0
  count1 := 0
  state := ⟨0x67452301, 0xefcdab89, 0x98badcfe, 0x10325476⟩

variable (transform : Compression)

def feed (h : HashMd5) (input : List UInt8) : HashMd5 :=
  let length := UInt32.ofNat input.length
  let index := (h.count0 / 8 % 64).toNat
  let count0 := h.count0 + length <<< 3
  let carried := if count0 < length <<< 3 then h.count1 + 1 else h.count1
  let count1 := carried + length >>> 29
  let firstpart := 64 - index
  if firstpart ≤ input.length then
    let filled := overwrite h.buffer index (input.take firstpart)
    let whole := consume md5BlockSize transform (transform h.state filled) (input.drop firstpart)
    ⟨overwrite filled 0 whole.2, count0, count1, whole.1⟩
  else
    ⟨overwrite h.buffer index input, count0, count1, h.state⟩

def md5Padding : List UInt8 := 0x80 :: List.replicate 63 0

/-- `finalize` and the digest. -/
def result (h : HashMd5) : List UInt8 :=
  let bits := md5Encode [h.count0, h.count1]
  let index := (h.count0 / 8 % 64).toNat
  let paddingLen := if index < 56 then 56 - index else 120 - index
  let padded := (h.feed transform (md5Padding.take paddingLen)).feed transform bits
  md5Encode [padded.state.a, padded.state.b, padded.state.c, padded.state.d]

end HashMd5

variable (transform : Compression)

/-- The digest of bytes that come in one piece. -/
def hashMd5 (bytes : List UInt8) : List UInt8 :=
  (HashMd5.init.feed transform bytes).result transform

example : hashMd5 md5Transform [0x61, 0x62, 0x63] =
    [0x90, 0x01, 0x50, 0x98, 0x3c, 0xd2, 0x4f, 0xb0,
      0xd6, 0x96, 0x3f, 0x7d, 0x28, 0xe1, 0x7f, 0x72] := by
  decide +kernel

namespace HashMd5

/-- What a hash holds when these bytes were fed to it, in whatever pieces. -/
structure Fed (h : HashMd5) (bytes : List UInt8) : Prop where
  length_buffer : h.buffer.length = md5BlockSize
  count : h.count1.toNat * 2 ^ 32 + h.count0.toNat = 8 * bytes.length % 2 ^ 64
  state : h.state = (consume md5BlockSize transform init.state bytes).1
  begun : h.buffer.take (bytes.length % 64) = (consume md5BlockSize transform init.state bytes).2

theorem fed_init : Fed transform init [] where
  length_buffer := List.length_replicate
  count := rfl
  state := rfl
  begun := rfl

variable {transform}

theorem Fed.index {h : HashMd5} {bytes : List UInt8} (hfed : Fed transform h bytes) :
    (h.count0 / 8 % 64).toNat = bytes.length % 64 := by
  have hcount := hfed.count
  have hlt := h.count0.toNat_lt
  rw [UInt32.toNat_mod, UInt32.toNat_div]
  change h.count0.toNat / 8 % 64 = _
  omega

/-- The carry of the low word, on numbers. -/
theorem count_carry {c0 c1 n c : ℕ} (length : ℕ) (h0 : c0 < 2 ^ 32)
    (hcount : c1 * 2 ^ 32 + c0 = 8 * n % 2 ^ 64)
    (hc : c = if (c0 + length * 8 % 2 ^ 32) % 2 ^ 32 < length * 8 % 2 ^ 32 then 1 else 0) :
    (c1 + c + length / 2 ^ 29) % 2 ^ 32 * 2 ^ 32 + (c0 + length * 8 % 2 ^ 32) % 2 ^ 32 =
      8 * (n + length) % 2 ^ 64 := by
  obtain ⟨k, hk⟩ : ∃ k, 8 * n = k * 2 ^ 64 + (c1 * 2 ^ 32 + c0) :=
    ⟨8 * n / 2 ^ 64, by rw [hcount]; omega⟩
  obtain ⟨low, high, hsplit, hlow⟩ : ∃ low high, length * 8 = high * 2 ^ 32 + low ∧ low < 2 ^ 32 :=
    ⟨length * 8 % 2 ^ 32, length * 8 / 2 ^ 32, by omega, by omega⟩
  have hmod : length * 8 % 2 ^ 32 = low := by omega
  have hdiv : length / 2 ^ 29 = high := by omega
  rw [hmod] at hc
  rw [hmod, hdiv]
  have hsum : 8 * (n + length) = k * 2 ^ 64 + ((c1 + high) * 2 ^ 32 + (c0 + low)) := by
    omega
  have hright : 8 * (n + length) % 2 ^ 64 = ((c1 + high) * 2 ^ 32 + (c0 + low)) % 2 ^ 64 := by
    rw [hsum, Nat.mul_add_mod_self_right]
  rw [hright]
  clear hsum hright hmod hdiv hcount hk
  split at hc
  · have hwrap : (c0 + low) % 2 ^ 32 + 2 ^ 32 = c0 + low := by omega
    subst hc
    omega
  · have hwrap : (c0 + low) % 2 ^ 32 = c0 + low := by omega
    subst hc
    omega

/-- The two words count the bits modulo 2^64. -/
theorem count_feed {count0 count1 : UInt32} {n length : ℕ} (hlength : length < 2 ^ 32)
    (hcount : count1.toNat * 2 ^ 32 + count0.toNat = 8 * n % 2 ^ 64) :
    ((if count0 + UInt32.ofNat length <<< 3 < UInt32.ofNat length <<< 3 then count1 + 1
      else count1) + UInt32.ofNat length >>> 29).toNat * 2 ^ 32 +
        (count0 + UInt32.ofNat length <<< 3).toNat = 8 * (n + length) % 2 ^ 64 := by
  have hofNat : (UInt32.ofNat length).toNat = length := by
    rw [UInt32.toNat_ofNat', Nat.mod_eq_of_lt hlength]
  have hleft : (UInt32.ofNat length <<< 3).toNat = length * 8 % 2 ^ 32 := by
    rw [UInt32.toNat_shiftLeft, hofNat, Nat.shiftLeft_eq]
    rfl
  have hright : (UInt32.ofNat length >>> 29).toNat = length / 2 ^ 29 := by
    rw [UInt32.toNat_shiftRight, hofNat, Nat.shiftRight_eq_div_pow]
    rfl
  have hsum : (count0 + UInt32.ofNat length <<< 3).toNat =
      (count0.toNat + length * 8 % 2 ^ 32) % 2 ^ 32 := by
    rw [UInt32.toNat_add, hleft]
  have hone : (count1 + 1).toNat = (count1.toNat + 1) % 2 ^ 32 := by
    rw [UInt32.toNat_add]
    rfl
  have hcarry := count_carry length count0.toNat_lt hcount rfl
  by_cases hless : count0 + UInt32.ofNat length <<< 3 < UInt32.ofNat length <<< 3
  · have hnat := hless
    rw [UInt32.lt_iff_toNat_lt, hleft, hsum] at hnat
    rw [if_pos hnat] at hcarry
    rw [if_pos hless, UInt32.toNat_add, hone, hright, hsum, Nat.mod_add_mod, hcarry]
  · have hnat := hless
    rw [UInt32.lt_iff_toNat_lt, hleft, hsum] at hnat
    rw [if_neg hnat] at hcarry
    rw [if_neg hless, UInt32.toNat_add, hright, hsum]
    exact hcarry

theorem Fed.feed {h : HashMd5} {bytes input : List UInt8} (hfed : Fed transform h bytes)
    (hlength : input.length < 2 ^ 32) :
    Fed transform (h.feed transform input) (bytes ++ input) := by
  have hcount := count_feed hlength hfed.count
  rw [← List.length_append] at hcount
  have hbuffer : h.buffer.length = 64 := hfed.length_buffer
  have hindex : bytes.length % 64 < 64 := Nat.mod_lt _ (by decide)
  have happend := @consume_append _ _ md5BlockSize transform (by decide) init.state bytes input
  rw [← hfed.state, ← hfed.begun] at happend
  unfold HashMd5.feed
  dsimp only
  rw [hfed.index]
  split
  · rename_i hfull
    -- the begun block is filled up, and the loop takes the whole blocks behind it
    have hfirst : (input.take (64 - bytes.length % 64)).length = 64 - bytes.length % 64 :=
      List.length_take_of_le hfull
    have hfilled : overwrite h.buffer (bytes.length % 64)
          (input.take (64 - bytes.length % 64)) =
        h.buffer.take (bytes.length % 64) ++ input.take (64 - bytes.length % 64) := by
      rw [overwrite, hfirst, List.drop_of_length_le (by omega), List.append_nil]
    have hblock : (h.buffer.take (bytes.length % 64) ++
        input.take (64 - bytes.length % 64)).length = md5BlockSize := by
      rw [List.length_append, hfirst, List.length_take_of_le (by omega), md5BlockSize]
      omega
    have hinput : h.buffer.take (bytes.length % 64) ++ input =
        (h.buffer.take (bytes.length % 64) ++ input.take (64 - bytes.length % 64)) ++
          input.drop (64 - bytes.length % 64) := by
      rw [List.append_assoc, List.take_append_drop]
    rw [hinput, consume_block (by decide) hblock, ← hfilled] at happend
    rw [← hfilled] at hblock
    have hrest := @length_consume _ _ md5BlockSize transform (by decide) init.state
      (bytes ++ input)
    rw [happend] at hrest
    refine ⟨?_, hcount, by rw [happend], ?_⟩
    · have hmod := Nat.mod_lt (bytes ++ input).length (by decide : 0 < md5BlockSize)
      rw [length_overwrite _ _ (Nat.zero_le _), hrest, hblock]
      omega
    · rw [happend, overwrite, List.take_zero, List.nil_append]
      exact List.take_left' hrest
  · rename_i hshort
    have hlt : (h.buffer.take (bytes.length % 64) ++ input).length < md5BlockSize := by
      rw [List.length_append, List.length_take_of_le (by omega), md5BlockSize]
      omega
    rw [consume_of_lt hlt] at happend
    have hlen := length_overwrite h.buffer input (o := bytes.length % 64) (by omega)
    refine ⟨by rw [hlen, hbuffer, md5BlockSize]; omega, hcount, by rw [happend], ?_⟩
    have hmod : (bytes ++ input).length % 64 = bytes.length % 64 + input.length := by
      rw [List.length_append]
      omega
    rw [happend, hmod]
    exact take_overwrite _ _ (by omega)

theorem Fed.foldl {h : HashMd5} {bytes : List UInt8} (hfed : Fed transform h bytes)
    {pieces : List (List UInt8)} (hlength : pieces.flatten.length < 2 ^ 32) :
    Fed transform (pieces.foldl (HashMd5.feed transform) h) (bytes ++ pieces.flatten) := by
  induction pieces generalizing h bytes with
  | nil => simpa using hfed
  | cons piece pieces ih =>
    rw [List.flatten_cons, List.length_append] at hlength
    have hnext := ih (hfed.feed (by omega : piece.length < 2 ^ 32)) (by omega)
    rwa [List.append_assoc] at hnext

theorem Fed.padding {h h' : HashMd5} {bytes : List UInt8} (hfed : Fed transform h bytes)
    (hfed' : Fed transform h' bytes) : h.count0 = h'.count0 ∧ h.count1 = h'.count1 := by
  have hcount := hfed.count.trans hfed'.count.symm
  have h0 := h.count0.toNat_lt
  have h0' := h'.count0.toNat_lt
  constructor
  · exact UInt32.toNat_inj.mp (by omega)
  · exact UInt32.toNat_inj.mp (by omega)

/-- Bytes that do not fill the block behind the begun one leave a state that they alone decide. -/
theorem Fed.result_eq {h h' : HashMd5} {bytes : List UInt8} (hfed : Fed transform h bytes)
    (hfed' : Fed transform h' bytes) : h.result transform = h'.result transform := by
  obtain ⟨hcount0, hcount1⟩ := hfed.padding hfed'
  have hpadding : ∀ k, (md5Padding.take k).length < 2 ^ 32 := by
    intro k
    have hlength : md5Padding.length = 64 := rfl
    rw [List.length_take, hlength]
    omega
  have hbits : ∀ c0 c1, (md5Encode [c0, c1]).length < 2 ^ 32 := by
    intro c0 c1
    simp [md5Encode]
  unfold HashMd5.result
  dsimp only
  rw [hcount0, hcount1, ((hfed.feed (hpadding _)).feed (hbits _ _)).state,
    ((hfed'.feed (hpadding _)).feed (hbits _ _)).state]

theorem Fed.result_eq_hashMd5 {h : HashMd5} {bytes : List UInt8} (hfed : Fed transform h bytes)
    (hlength : bytes.length < 2 ^ 32) : h.result transform = hashMd5 transform bytes :=
  hfed.result_eq ((fed_init transform).feed hlength)

@[simp] theorem length_result (h : HashMd5) : (h.result transform).length = 16 := by
  simp [HashMd5.result, md5Encode]

end HashMd5

end Bettergram.Core

/-! ## The digest of pieces

However the bytes are cut into pieces, the blocks that are transformed are those of the bytes with
their padding and the number of their bits. No piece is copied over the end of the buffer.
-/

namespace Bettergram.Core.HashMd5
open Foundation

variable {transform : Compression}

/-- The constructor with some input; without one nothing is fed. -/
def construct (transform : Compression) (input : List UInt8) : HashMd5 :=
  if 0 < input.length then init.feed transform input else init

/-- The bytes with the padding byte, zeros and the number of bits. -/
def padded (bytes : List UInt8) : List UInt8 :=
  bytes ++ 0x80 :: List.replicate ((119 - bytes.length % 64) % 64) 0 ++ leBytes 8 (8 * bytes.length)

/-- `_md5_encode` of the state. -/
def encodeState (s : Md5State) : List UInt8 := md5Encode [s.a, s.b, s.c, s.d]

/-- A stretch of the buffer that `memcpy` writes. -/
structure Write where
  offset : ℕ
  length : ℕ

/-- The calls of `memcpy` in `feed`. -/
def feedWrites (transform : Compression) (h : HashMd5) (input : List UInt8) : List Write :=
  let index := (h.count0 / 8 % 64).toNat
  let firstpart := 64 - index
  if firstpart ≤ input.length then
    let filled := overwrite h.buffer index (input.take firstpart)
    let whole := consume md5BlockSize transform (transform h.state filled) (input.drop firstpart)
    [⟨index, firstpart⟩, ⟨0, whole.2.length⟩]
  else [⟨index, input.length⟩]

theorem feedWrites_inside (h : HashMd5) (input : List UInt8) :
    ∀ write ∈ feedWrites transform h input, write.offset + write.length ≤ md5BlockSize := by
  have hindex : (h.count0 / 8 % 64).toNat < 64 := by
    rw [UInt32.toNat_mod]
    exact Nat.mod_lt _ (by decide)
  intro write hmem
  unfold feedWrites at hmem
  dsimp only at hmem
  split at hmem
  · rcases List.mem_cons.mp hmem with rfl | hmem
    · rw [md5BlockSize]
      dsimp only
      omega
    · rw [List.mem_singleton.mp hmem, Nat.zero_add, length_consume (by decide)]
      exact (Nat.mod_lt _ (by decide)).le
  · rw [List.mem_singleton.mp hmem, md5BlockSize]
    dsimp only
    omega

theorem fed_construct {input : List UInt8} (hlength : input.length < 2 ^ 32) :
    Fed transform (construct transform input) input := by
  unfold construct
  split
  · exact (fed_init transform).feed hlength
  · rename_i hempty
    rw [List.eq_nil_of_length_eq_zero (Nat.eq_zero_of_not_pos hempty)]
    exact fed_init transform

/-! ## Padding -/

theorem length_padded (bytes : List UInt8) : (padded bytes).length % md5BlockSize = 0 := by
  have hlength : (padded bytes).length =
      bytes.length + (119 - bytes.length % 64) % 64 + 1 + 8 := by
    simp only [padded, List.length_append, List.length_cons, List.length_replicate,
      length_leBytes]
    omega
  rw [hlength, md5BlockSize]
  omega

theorem take_md5Padding {n : ℕ} (h : n < 64) :
    md5Padding.take (n + 1) = 0x80 :: List.replicate n 0 := by
  rw [md5Padding, List.take_succ_cons, List.take_replicate, Nat.min_eq_left (Nat.le_of_lt_succ h)]

/-- The two words count the bits of the bytes. -/
theorem Fed.bits {h : HashMd5} {bytes : List UInt8} (hfed : Fed transform h bytes)
    (hlength : bytes.length < 2 ^ 32) :
    md5Encode [h.count0, h.count1] = leBytes 8 (8 * bytes.length) := by
  have hcount := hfed.count
  have h0 := h.count0.toNat_lt
  rw [Nat.mod_eq_of_lt (by omega)] at hcount
  have hlow : 8 * bytes.length % 256 ^ 4 = h.count0.toNat := by omega
  have hhigh : 8 * bytes.length / 256 ^ 4 = h.count1.toNat := by omega
  rw [show 8 = 4 + 4 from rfl, leBytes_add, ← leBytes_mod 4, hlow, hhigh]
  simp [md5Encode]

/-- `finalize` feeds what pads the bytes, so the digest is that of the padded blocks. -/
theorem Fed.result_eq_blocks {h : HashMd5} {bytes : List UInt8} (hfed : Fed transform h bytes)
    (hlength : bytes.length < 2 ^ 32) :
    h.result transform =
      encodeState ((blocks md5BlockSize (padded bytes)).foldl transform init.state) := by
  obtain ⟨n, hn, hlen, hzeros⟩ : ∃ n, n < 64 ∧
      (if bytes.length % 64 < 56 then 56 - bytes.length % 64 else 120 - bytes.length % 64) = n + 1 ∧
        (119 - bytes.length % 64) % 64 = n := by
    refine ⟨(119 - bytes.length % 64) % 64, Nat.mod_lt _ (by decide), ?_, rfl⟩
    split <;> omega
  have hpadding : (md5Padding.take (n + 1)).length < 2 ^ 32 := by
    rw [take_md5Padding hn, List.length_cons, List.length_replicate]
    omega
  have hbits : (md5Encode [h.count0, h.count1]).length < 2 ^ 32 := by
    rw [hfed.bits hlength, length_leBytes]
    decide
  have hpadded : bytes ++ md5Padding.take (n + 1) ++ md5Encode [h.count0, h.count1] =
      padded bytes := by
    rw [take_md5Padding hn, hfed.bits hlength, padded, hzeros]
  have hstate := ((hfed.feed hpadding).feed hbits).state
  rw [hpadded, fst_consume (by decide)] at hstate
  unfold HashMd5.result
  dsimp only
  rw [hfed.index, hlen, hstate]
  rfl

/-- Bytes in pieces have the digest of the whole, which is that of their padded blocks, and no
call of `feed` writes behind the buffer. -/
theorem digest_of_pieces (transform : Compression) {pieces : List (List UInt8)}
    (hlength : pieces.flatten.length < 2 ^ 29) :
    (pieces.foldl (feed transform) (construct transform [])).result transform =
        (construct transform pieces.flatten).result transform ∧
      (pieces.foldl (feed transform) (construct transform [])).result transform =
        encodeState
          ((blocks md5BlockSize (padded pieces.flatten)).foldl transform init.state) ∧
      (padded pieces.flatten).length % md5BlockSize = 0 ∧
      ∀ h input, ∀ write ∈ feedWrites transform h input,
        write.offset + write.length ≤ md5BlockSize := by
  have hlong : pieces.flatten.length < 2 ^ 32 := by omega
  have hempty : Fed transform (construct transform []) [] := fed_construct (by decide)
  have hfed := hempty.foldl hlong
  rw [List.nil_append] at hfed
  exact ⟨hfed.result_eq (fed_construct hlong), hfed.result_eq_blocks hlong,
    length_padded _, feedWrites_inside⟩

/-- Three pieces, one of them empty, with the transform of the source. -/
theorem digest_of_three :
    ([[0x61, 0x62], [], [0x63]].foldl (feed md5Transform) (construct md5Transform [])).result
        md5Transform =
      (construct md5Transform [0x61, 0x62, 0x63]).result md5Transform := by
  have hshort : [[0x61, 0x62], [], [(0x63 : UInt8)]].flatten.length < 2 ^ 29 := by decide
  exact (digest_of_pieces md5Transform hshort).1

end Bettergram.Core.HashMd5
