import Mathlib.Data.List.Basic
import Mathlib.Tactic.Linarith

/-! # Cutting a stream into records

The front of a buffer decides the size of its first record. When more data
never changes such a decision, a stream can be cut piece by piece: whatever the
pieces are, the same records come out and the same bytes are left over.
-/

namespace Bettergram.Foundation

variable {α σ : Type*}

/-- What the front of a buffer says about the size of its first record. -/
inductive FrontSize where
  | unknown
  | invalid
  | exact (n : ℕ)
  deriving DecidableEq

/-- Sizes are positive, bounded and not changed by more data; short buffers may be undecided. -/
structure FrontSize.Stable (size : List α → FrontSize) (limit : ℕ) : Prop where
  pos : ∀ {xs n}, size xs = .exact n → 0 < n
  le : ∀ {xs n}, size xs = .exact n → n ≤ limit
  short : ∀ {xs}, size xs = .unknown → xs.length < limit
  undecided : ∀ {xs ys n}, size xs = .unknown → size (xs ++ ys) = .exact n → xs.length < n
  exact_append : ∀ {xs n} (ys), size xs = .exact n → size (xs ++ ys) = .exact n
  invalid_append : ∀ {xs} (ys), size xs = .invalid → size (xs ++ ys) = .invalid

variable (size : List α → FrontSize)

/-- The complete records in front, and the rest. -/
def cut : ℕ → List α → List (List α) × List α
  | 0, xs => ([], xs)
  | fuel + 1, xs =>
    match size xs with
    | .exact n =>
      if n ≤ xs.length then
        let (rs, rest) := cut fuel (xs.drop n)
        (xs.take n :: rs, rest)
      else ([], xs)
    | _ => ([], xs)

def records (xs : List α) : List (List α) := (cut size xs.length xs).1
def leftover (xs : List α) : List α := (cut size xs.length xs).2

/-- The first record is complete. -/
def HasRecord (xs : List α) : Prop := ∃ n, size xs = .exact n ∧ n ≤ xs.length

variable {size} {limit : ℕ} {xs : List α}

theorem cut_of_not_hasRecord (h : ¬HasRecord size xs) (fuel : ℕ) :
    cut size fuel xs = ([], xs) := by
  cases fuel with
  | zero => rfl
  | succ fuel =>
    unfold cut
    split
    · next n hn =>
      have hlong : ¬n ≤ xs.length := fun hle => h ⟨n, hn, hle⟩
      rw [if_neg hlong]
    · rfl

@[simp] theorem records_nil : records size [] = [] := rfl
@[simp] theorem leftover_nil : leftover size [] = [] := rfl

theorem records_of_not_hasRecord (h : ¬HasRecord size xs) : records size xs = [] := by
  rw [records, cut_of_not_hasRecord h]

theorem leftover_of_not_hasRecord (h : ¬HasRecord size xs) : leftover size xs = xs := by
  rw [leftover, cut_of_not_hasRecord h]

namespace FrontSize.Stable

variable (hs : FrontSize.Stable size limit)
include hs

/-- Enough fuel does not matter. -/
theorem cut_fuel {fuel : ℕ} (hfuel : xs.length ≤ fuel) :
    cut size fuel xs = cut size xs.length xs := by
  induction fuel using Nat.strong_induction_on generalizing xs with
  | _ fuel ih =>
    by_cases h : HasRecord size xs
    · obtain ⟨n, hn, hle⟩ := h
      have hpos := hs.pos hn
      obtain ⟨f, rfl⟩ : ∃ f, fuel = f + 1 := ⟨fuel - 1, by omega⟩
      obtain ⟨l, hl⟩ : ∃ l, xs.length = l + 1 := ⟨xs.length - 1, by omega⟩
      have hdrop : (xs.drop n).length ≤ l := by
        rw [List.length_drop]
        omega
      have hrest : ∀ m < f + 1, (xs.drop n).length ≤ m →
          cut size m (xs.drop n) = cut size (xs.drop n).length (xs.drop n) :=
        fun m hm hle => ih m hm hle
      have hf := hrest f (by omega) (by omega)
      have hx := hrest l (by omega) hdrop
      simp only [hl, cut, hn, hf, hx]
    · rw [cut_of_not_hasRecord h, cut_of_not_hasRecord h]

theorem cut_cons {n : ℕ} (hn : size xs = .exact n) (hle : n ≤ xs.length) :
    records size xs = xs.take n :: records size (xs.drop n) ∧
      leftover size xs = leftover size (xs.drop n) := by
  have hpos := hs.pos hn
  obtain ⟨l, hl⟩ : ∃ l, xs.length = l + 1 := ⟨xs.length - 1, by omega⟩
  have hdrop : (xs.drop n).length ≤ l := by
    rw [List.length_drop]
    omega
  have hcut := hs.cut_fuel hdrop
  have hle' : n ≤ l + 1 := hl ▸ hle
  simp only [records, leftover, hl, cut, hn, hle', if_true, hcut, and_self]

/-- Induction along the records in front of a buffer. -/
theorem induction_on {P : List α → Prop} (xs : List α)
    (stop : ∀ xs, ¬HasRecord size xs → P xs)
    (record : ∀ xs n, size xs = .exact n → n ≤ xs.length → P (xs.drop n) → P xs) : P xs := by
  induction hlen : xs.length using Nat.strong_induction_on generalizing xs with
  | _ l ih =>
    by_cases h : HasRecord size xs
    · obtain ⟨n, hn, hle⟩ := h
      have hpos := hs.pos hn
      apply record xs n hn hle
      apply ih (xs.drop n).length _ _ rfl
      rw [List.length_drop]
      omega
    · exact stop xs h

/-- The records and the rest are the whole buffer. -/
theorem flatten_records (xs : List α) : (records size xs).flatten ++ leftover size xs = xs := by
  induction xs using hs.induction_on with
  | stop xs h => simp [records_of_not_hasRecord h, leftover_of_not_hasRecord h]
  | record xs n hn hle ih =>
    obtain ⟨hr, hl⟩ := hs.cut_cons hn hle
    rw [hr, hl, List.flatten_cons, List.append_assoc, ih, List.take_append_drop]

theorem not_hasRecord_leftover (xs : List α) : ¬HasRecord size (leftover size xs) := by
  induction xs using hs.induction_on with
  | stop xs h => rwa [leftover_of_not_hasRecord h]
  | record xs n hn hle ih => rwa [(hs.cut_cons hn hle).2]

/-- Cutting in two pieces: the rest of the first piece goes in front of the second. -/
theorem cut_append (xs ys : List α) :
    records size (xs ++ ys) = records size xs ++ records size (leftover size xs ++ ys) ∧
      leftover size (xs ++ ys) = leftover size (leftover size xs ++ ys) := by
  induction xs using hs.induction_on with
  | stop xs h => simp [records_of_not_hasRecord h, leftover_of_not_hasRecord h]
  | record xs n hn hle ih =>
    have hle' : n ≤ (xs ++ ys).length := by
      rw [List.length_append]
      omega
    obtain ⟨hr, hl⟩ := hs.cut_cons hn hle
    obtain ⟨hr', hl'⟩ := hs.cut_cons (hs.exact_append ys hn) hle'
    rw [List.drop_append_of_le_length hle] at hr' hl'
    rw [hr', hl', hr, hl, ih.1, ih.2, List.take_append_of_le_length hle]
    exact ⟨rfl, rfl⟩

/-- Complete records in front are cut off one by one. -/
theorem cut_flatten {rs : List (List α)} (hrs : ∀ r ∈ rs, size r = .exact r.length)
    (ys : List α) :
    records size (rs.flatten ++ ys) = rs ++ records size ys ∧
      leftover size (rs.flatten ++ ys) = leftover size ys := by
  induction rs with
  | nil => simp
  | cons r rs ih =>
    obtain ⟨ihr, ihl⟩ := ih fun r' hr' => hrs r' (by simp [hr'])
    have hr : size (r ++ (rs.flatten ++ ys)) = .exact r.length :=
      hs.exact_append _ (hrs r (by simp))
    obtain ⟨hc, hl⟩ := hs.cut_cons hr (by simp)
    rw [List.flatten_cons, List.append_assoc, hc, hl, List.take_left, List.drop_left, ihr, ihl]
    exact ⟨rfl, rfl⟩

/-- A buffer that holds the first record decides its size. -/
theorem exact_of_append {xs ys : List α} {n : ℕ} (h : size (xs ++ ys) = .exact n)
    (hle : n ≤ xs.length) : size xs = .exact n := by
  cases hsize : size xs with
  | unknown => exact absurd (hs.undecided hsize h) (by omega)
  | invalid => exact absurd ((hs.invalid_append ys hsize).symm.trans h) (by simp)
  | exact m => exact (hs.exact_append ys hsize).symm.trans h

/-- Every record cut off has the size that its own bytes tell. -/
theorem size_of_mem_records {xs r : List α} (hr : r ∈ records size xs) :
    size r = .exact r.length := by
  induction xs using hs.induction_on with
  | stop xs h => simp [records_of_not_hasRecord h] at hr
  | record xs n hn hle ih =>
    rw [(hs.cut_cons hn hle).1, List.mem_cons] at hr
    rcases hr with rfl | hr
    · have htake : (xs.take n).length = n := List.length_take_of_le hle
      rw [← List.take_append_drop n xs] at hn
      rw [htake]
      exact hs.exact_of_append hn (by omega)
    · exact ih hr

/-- When all sizes are multiples of a block, cutting keeps the length modulo the block. -/
theorem length_leftover_mod {d : ℕ} (hd : ∀ {xs n}, size xs = .exact n → n % d = 0)
    (xs : List α) : (leftover size xs).length % d = xs.length % d := by
  induction xs using hs.induction_on with
  | stop xs h => rw [leftover_of_not_hasRecord h]
  | record xs n hn hle ih =>
    have hlen : xs.length = n + (xs.drop n).length := by
      rw [List.length_drop]
      omega
    rw [(hs.cut_cons hn hle).2, ih, hlen, Nat.add_mod n, hd hn, Nat.zero_add, Nat.mod_mod]

/-- Then a part of a block at the end of the buffer makes no difference. -/
theorem records_whole {d : ℕ} (hpos : 0 < d) (hd : ∀ {xs n}, size xs = .exact n → n % d = 0)
    (xs : List α) :
    records size (xs.take (xs.length - xs.length % d)) = records size xs := by
  set whole := xs.take (xs.length - xs.length % d) with hwhole
  have hlen : whole.length = xs.length - xs.length % d := List.length_take_of_le (by omega)
  have hmod : (leftover size whole).length % d = 0 := by
    rw [hs.length_leftover_mod hd, hlen]
    exact Nat.sub_mod_eq_zero_of_mod_eq (Nat.mod_mod _ _).symm
  set part := xs.drop (xs.length - xs.length % d) with hpart
  have hshort : part.length < d := by
    have hmodlt := Nat.mod_lt xs.length hpos
    have hle := Nat.mod_le xs.length d
    rw [hpart, List.length_drop]
    omega
  have hnone : ¬HasRecord size (leftover size whole ++ part) := by
    rintro ⟨n, hn, hle⟩
    have hblock : n ≤ (leftover size whole).length := by
      rw [List.length_append] at hle
      have hmul := Nat.div_mul_cancel (Nat.dvd_of_mod_eq_zero (hd hn))
      have hmul' := Nat.div_mul_cancel (Nat.dvd_of_mod_eq_zero hmod)
      have hdiv : n / d ≤ (leftover size whole).length / d := by
        have h := Nat.div_le_div_right (c := d) hle
        rwa [Nat.add_div hpos, Nat.div_eq_of_lt hshort, hmod, Nat.zero_add, Nat.mod_eq_of_lt hshort,
          if_neg (by omega), Nat.add_zero] at h
      have hle' := Nat.mul_le_mul_right d hdiv
      rwa [hmul, hmul'] at hle'
    exact hs.not_hasRecord_leftover whole ⟨n, hs.exact_of_append hn hblock, hblock⟩
  have hcut := (hs.cut_append whole part).1
  rw [records_of_not_hasRecord hnone, List.append_nil] at hcut
  rw [← hcut, hwhole, hpart, List.take_append_drop]

end FrontSize.Stable

/-! ## Feeding records to a handler that may refuse one -/

variable {ρ τ : Type*} (handle : ρ → σ → Bool × σ)

/-- The state afterwards and the accepted records; a refused record may have changed the state. -/
def feed : List ρ → σ → σ × List ρ
  | [], s => (s, [])
  | r :: rs, s =>
    match handle r s with
    | (true, s) =>
      let (s, accepted) := feed rs s
      (s, r :: accepted)
    | (false, s) => (s, [])

variable {handle}

theorem feed_append {rs : List ρ} {s : σ} (ts : List ρ) (h : (feed handle rs s).2 = rs) :
    feed handle (rs ++ ts) s =
      ((feed handle ts (feed handle rs s).1).1, rs ++ (feed handle ts (feed handle rs s).1).2) := by
  induction rs generalizing s with
  | nil => simp [feed]
  | cons r rs ih =>
    rcases hr : handle r s with ⟨_ | _, s'⟩
    · simp [feed, hr] at h
    · simp only [feed, hr, List.cons.injEq, true_and] at h
      simp only [List.cons_append, feed, hr, ih h]

/-- Behind a refused record nothing is handled. -/
theorem feed_append_of_refused {rs : List ρ} {s : σ} (ts : List ρ)
    (h : (feed handle rs s).2 ≠ rs) : feed handle (rs ++ ts) s = feed handle rs s := by
  induction rs generalizing s with
  | nil => simp [feed] at h
  | cons r rs ih =>
    rcases hr : handle r s with ⟨_ | _, s'⟩
    · simp [feed, hr]
    · simp only [feed, hr, ne_eq, List.cons.injEq, true_and] at h
      simp only [List.cons_append, feed, hr, ih h]

theorem feed_isPrefix (rs : List ρ) (s : σ) : (feed handle rs s).2 <+: rs := by
  induction rs generalizing s with
  | nil => simp [feed]
  | cons r rs ih =>
    rcases hr : handle r s with ⟨_ | _, s'⟩
    · simp [feed, hr]
    · simpa [feed, hr] using ih s'

/-- Records that are decoded first. -/
theorem feed_map (f : τ → ρ) (rs : List τ) (s : σ) :
    feed handle (rs.map f) s =
      ((feed (fun r s => handle (f r) s) rs s).1, (feed (fun r s => handle (f r) s) rs s).2.map f) := by
  induction rs generalizing s with
  | nil => rfl
  | cons r rs ih =>
    rcases hr : handle (f r) s with ⟨_ | _, s'⟩
    · simp [feed, hr]
    · simp [feed, hr, ih]

/-- When a record is refused whatever the state is, the records before the first refused one are
handled in full, and that one as far as it changes the state. -/
theorem feed_eq {p : ρ → Bool} (hp : ∀ r s, (handle r s).1 = p r) (rs : List ρ) (s : σ) :
    let handled := (rs.takeWhile p).foldl (fun s r => (handle r s).2) s
    feed handle rs s =
      (((rs.dropWhile p).head?.elim handled fun r => (handle r handled).2), rs.takeWhile p) := by
  induction rs generalizing s with
  | nil => rfl
  | cons r rs ih =>
    have hr := hp r s
    rcases heq : handle r s with ⟨_ | _, s'⟩
    · rw [heq] at hr
      simp [feed, heq, ← hr]
    · rw [heq] at hr
      have ih' := ih s'
      dsimp only at ih'
      simp [feed, heq, ← hr, ih']

end Bettergram.Foundation
