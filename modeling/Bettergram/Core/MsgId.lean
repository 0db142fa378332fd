import Mathlib.Order.Monotone.Basic
import Mathlib.Tactic.Ring
import Mathlib.Data.List.Basic

/-! # Message ids from the clock

An id is the time of the server in its upper half, moved on by the ticks that
have gone by since that time was set, and a number that grows with each id. The
ticks are taken by two functions, of which only one knows the monotonic clock.
-/

namespace Bettergram.Core

/-- What the clocks of the system show: seconds, the counter of Windows or macOS, and the
nanoseconds of `CLOCK_REALTIME` and `CLOCK_MONOTONIC`. -/
structure ClockReading where
  time : UInt32
  counter : UInt64
  realtime : UInt64
  monotonic : UInt64
deriving DecidableEq, Repr

inductive Platform where
  | win
  | mac
  | other
deriving DecidableEq, Repr

namespace Platform

/-- The ticks that `_initMsgIdConstants` takes. -/
def startTicks : Platform → ClockReading → UInt64
  | .win, c | .mac, c => c.counter
  | .other, c => c.realtime

/-- The ticks that `msgid` takes. -/
def ticks : Platform → ClockReading → UInt64
  | .win, c | .mac, c => c.counter
  | .other, c => c.monotonic

end Platform

theorem four_add {v : UInt64} (h : v.toNat % 4 = 0) : (v + 4).toNat % 4 = 0 := by
  have hfour : (4 : UInt64).toNat = 4 := rfl
  rw [UInt64.toNat_add, hfour]
  omega

structure MsgIdClock where
  unixtimeDelta : UInt32
  unixtimeWasSet : Bool
  msgIdStart : UInt64
  msgIdMsStart : UInt64
  msgIdLocal : UInt64
  four : msgIdLocal.toNat % 4 = 0

namespace MsgIdClock

def start : MsgIdClock := ⟨0, false, 0, 0, 0, rfl⟩

def unixtime (c : ClockReading) (s : MsgIdClock) : UInt32 := c.time + s.unixtimeDelta

variable (platform : Platform)

/-- The ticks are read first, then the time. -/
def initMsgIdConstants (c c' : ClockReading) (msgIdRand : UInt32) (s : MsgIdClock) : MsgIdClock :=
  { s with
    msgIdMsStart := platform.startTicks c
    msgIdStart := (s.unixtime c').toUInt64 <<< 32 ||| msgIdRand.toUInt64 }

def unixtimeInit (c c' : ClockReading) (msgIdRand : UInt32) (s : MsgIdClock) : MsgIdClock :=
  initMsgIdConstants platform c c' msgIdRand
    { s with unixtimeWasSet := false, unixtimeDelta := 0 }

/-- `cSet` is read for the difference to the clock, `c` and `c'` for the constants. -/
def unixtimeSet (serverTime : UInt32) (force : Bool) (cSet c c' : ClockReading)
    (msgIdRand : UInt32) (s : MsgIdClock) : MsgIdClock :=
  if ¬force ∧ s.unixtimeWasSet then s
  else
    initMsgIdConstants platform c c' msgIdRand
      { s with unixtimeWasSet := true, unixtimeDelta := serverTime + 1 - cSet.time }

/-- The ticks since the time was set. -/
def elapsedCount (c : ClockReading) (s : MsgIdClock) : UInt64 :=
  platform.ticks c - s.msgIdMsStart

/-- `_msgIdLocal += 4`. -/
def countId (s : MsgIdClock) : MsgIdClock :=
  { s with msgIdLocal := s.msgIdLocal + 4, four := four_add s.four }

/-- `scale` is the floor of a count times `_msgIdCoef`; `none` when that is too large to be
converted to 64 bits, which is left undefined. -/
def msgid (scale : ℕ → ℕ) (c : ClockReading) (s : MsgIdClock) : Option (UInt64 × MsgIdClock) :=
  let elapsed := scale (s.elapsedCount platform c).toNat
  if elapsed < 2 ^ 64 then
    let result := s.msgIdStart + UInt64.ofNat elapsed
    let result := result &&& ~~~0x03
    some (result + s.countId.msgIdLocal, s.countId)
  else none

/-- One id at each reading of the clocks. -/
def msgids (scale : ℕ → ℕ) : List ClockReading → MsgIdClock → Option (List UInt64)
  | [], _ => some []
  | c :: cs, s => do
    let (id, s) ← s.msgid platform scale c
    let ids ← s.msgids scale cs
    return id :: ids

end MsgIdClock

end Bettergram.Core

/-! ## Runs of message ids

Between two settings of the time the ids grow with the clock when the ticks were
taken from that clock at the beginning.
-/

namespace Bettergram.Core

namespace MsgIdClock

/-- An id as a whole number. -/
def wholeId (time rand elapsed count : ℕ) : ℕ := time * 2 ^ 32 + ((rand + elapsed) / 4 * 4 + count)

/-- The ticks that have gone by between two readings. -/
def ticksBetween (platform : Platform) (c₀ c : ClockReading) : ℕ :=
  (platform.ticks c).toNat - (platform.ticks c₀).toNat

/-- The ids of the readings `cs`, when the time was set to `time` at `c₀`. -/
structure Follows (platform : Platform) (scale : ℕ → ℕ) (c₀ : ClockReading) (time rand : ℕ)
    (s : MsgIdClock) (cs : List ClockReading) (ids : List UInt64) : Prop where
  increasing : ids.Pairwise (· < ·)
  four : ∀ id ∈ ids, id.toNat % 4 = 0
  elapsed : ∀ c ∈ cs, (s.elapsedCount platform c).toNat = ticksBetween platform c₀ c
  time : ∀ i c id, cs[i]? = some c → ids[i]? = some id →
    id.toNat / 2 ^ 32 = time + ((rand + scale (ticksBetween platform c₀ c)) / 4 * 4 +
      (s.msgIdLocal.toNat + 4 * (i + 1))) / 2 ^ 32

/-- No id of the readings needs more than 64 bits. -/
def Fits (platform : Platform) (scale : ℕ → ℕ) (c₀ : ClockReading) (time rand : ℕ)
    (s : MsgIdClock) (cs : List ClockReading) : Prop :=
  ∀ i c, cs[i]? = some c →
    wholeId time rand (scale (ticksBetween platform c₀ c)) (s.msgIdLocal.toNat + 4 * (i + 1)) <
      2 ^ 64

variable {platform : Platform} {scale : ℕ → ℕ} {c₀ c : ClockReading} {cs : List ClockReading}
  {time rand : ℕ} {s : MsgIdClock}

/-! ## One id -/

theorem toNat_and_not_three (v : UInt64) : (v &&& ~~~0x03).toNat = v.toNat / 4 * 4 := by
  have hmask : (~~~(0x03 : UInt64)).toNat = (2 ^ 62 - 1) <<< 2 := by decide
  have hshift : v.toNat / 4 * 4 = v.toNat >>> 2 <<< 2 := by
    rw [Nat.shiftLeft_eq, Nat.shiftRight_eq_div_pow]
  rw [UInt64.toNat_and, hmask, hshift]
  refine Nat.eq_of_testBit_eq fun i => ?_
  rw [Nat.testBit_and, Nat.testBit_shiftLeft, Nat.testBit_shiftLeft, Nat.testBit_two_pow_sub_one,
    Nat.testBit_shiftRight]
  by_cases hi : 2 ≤ i
  · have hindex : 2 + (i - 2) = i := by omega
    rw [hindex]
    by_cases hlow : i - 2 < 62
    · simp [hi, hlow]
    · have hzero : v.toNat.testBit i = false :=
        Nat.testBit_lt_two_pow (v.toNat_lt.trans_le (Nat.pow_le_pow_right (by decide) (by omega)))
      simp [hzero]
  · simp [hi]

theorem toNat_joined (time rand : UInt32) :
    (time.toUInt64 <<< 32 ||| rand.toUInt64).toNat = time.toNat * 2 ^ 32 + rand.toNat := by
  have hbits : (32 : UInt64).toNat % 64 = 32 := rfl
  have htime := time.toNat_lt
  rw [UInt64.toNat_or, UInt64.toNat_shiftLeft, hbits, UInt32.toNat_toUInt64,
    UInt32.toNat_toUInt64, Nat.shiftLeft_eq, Nat.mod_eq_of_lt (by omega), ← Nat.shiftLeft_eq,
    ← Nat.shiftLeft_add_eq_or_of_lt rand.toNat_lt, Nat.shiftLeft_eq]

theorem elapsedCount_toNat (hsame : s.msgIdMsStart = platform.ticks c₀)
    (hle : platform.ticks c₀ ≤ platform.ticks c) :
    (s.elapsedCount platform c).toNat = ticksBetween platform c₀ c := by
  rw [elapsedCount, hsame]
  exact UInt64.toNat_sub_of_le _ _ hle

/-- A call while the id fits. -/
theorem msgid_spec (hstart : s.msgIdStart.toNat = time * 2 ^ 32 + rand)
    (helapsed : (s.elapsedCount platform c).toNat = ticksBetween platform c₀ c)
    (hfits : wholeId time rand (scale (ticksBetween platform c₀ c)) (s.msgIdLocal.toNat + 4) <
      2 ^ 64) :
    ∃ id, s.msgid platform scale c = some (id, s.countId) ∧
      id.toNat = wholeId time rand (scale (ticksBetween platform c₀ c))
        (s.msgIdLocal.toNat + 4) := by
  have hfour : (4 : UInt64).toNat = 4 := rfl
  rw [wholeId] at hfits ⊢
  have hlocal : s.countId.msgIdLocal.toNat = s.msgIdLocal.toNat + 4 := by
    rw [countId, UInt64.toNat_add, hfour]
    omega
  generalize hscaled : scale (ticksBetween platform c₀ c) = elapsed at hfits ⊢
  have hsum : (s.msgIdStart + UInt64.ofNat elapsed).toNat = time * 2 ^ 32 + rand + elapsed := by
    rw [UInt64.toNat_add, hstart, UInt64.toNat_ofNat']
    omega
  refine ⟨(s.msgIdStart + UInt64.ofNat elapsed &&& ~~~0x03) + s.countId.msgIdLocal, ?_, ?_⟩
  · rw [msgid, helapsed, hscaled]
    exact if_pos (by omega)
  · rw [UInt64.toNat_add, toNat_and_not_three, hsum, hlocal]
    omega

theorem toNat_countId (h : s.msgIdLocal.toNat + 4 < 2 ^ 64) :
    s.countId.msgIdLocal.toNat = s.msgIdLocal.toNat + 4 := by
  have hfour : (4 : UInt64).toNat = 4 := rfl
  rw [countId, UInt64.toNat_add, hfour, Nat.mod_eq_of_lt h]

/-! ## Runs -/

theorem length_of_msgids {ids : List UInt64} (h : s.msgids platform scale cs = some ids) :
    ids.length = cs.length := by
  induction cs generalizing s ids with
  | nil =>
    obtain rfl := Option.some.inj h
    rfl
  | cons c cs ih =>
    obtain ⟨⟨id, s'⟩, -, hrest⟩ := Option.bind_eq_some_iff.mp h
    obtain ⟨ids', hids', hcons⟩ := Option.bind_eq_some_iff.mp hrest
    obtain rfl := Option.some.inj hcons
    rw [List.length_cons, List.length_cons, ih hids']

/-- While they fit, the ids of a run are the whole numbers. -/
theorem msgids_whole (hstart : s.msgIdStart.toNat = time * 2 ^ 32 + rand)
    (hsame : s.msgIdMsStart = platform.ticks c₀)
    (hle : ∀ c ∈ cs, platform.ticks c₀ ≤ platform.ticks c)
    (hfits : Fits platform scale c₀ time rand s cs) :
    ∃ ids, s.msgids platform scale cs = some ids ∧ ∀ i c id, cs[i]? = some c → ids[i]? = some id →
      id.toNat = wholeId time rand (scale (ticksBetween platform c₀ c))
        (s.msgIdLocal.toNat + 4 * (i + 1)) := by
  induction cs generalizing s with
  | nil => exact ⟨[], rfl, fun i c id hc => absurd hc (by simp)⟩
  | cons c cs ih =>
    have hfirst := hfits 0 c rfl
    have helapsed := elapsedCount_toNat hsame (hle c (by simp))
    obtain ⟨id, hid, hwhole⟩ := msgid_spec hstart helapsed hfirst
    have hlocal : s.countId.msgIdLocal.toNat = s.msgIdLocal.toNat + 4 := by
      refine toNat_countId ?_
      rw [wholeId] at hfirst
      omega
    have hmove : ∀ i, s.countId.msgIdLocal.toNat + 4 * (i + 1) =
        s.msgIdLocal.toNat + 4 * (i + 1 + 1) := fun i => by omega
    have hrest : Fits platform scale c₀ time rand s.countId cs := by
      intro i d hd
      rw [hmove]
      exact hfits (i + 1) d hd
    obtain ⟨ids, hids, hall⟩ :=
      ih (s := s.countId) hstart hsame (fun d hd => hle d (by simp [hd])) hrest
    refine ⟨id :: ids, ?_, ?_⟩
    · rw [msgids, hid]
      simp [hids]
    · intro i d id' hd hid'
      cases i with
      | zero =>
        obtain rfl := Option.some.inj hd
        obtain rfl := Option.some.inj hid'
        exact hwhole
      | succ i =>
        rw [← hmove]
        exact hall i d id' hd hid'

theorem wholeId_div (time rand elapsed count : ℕ) :
    wholeId time rand elapsed count / 2 ^ 32 =
      time + ((rand + elapsed) / 4 * 4 + count) / 2 ^ 32 := by
  rw [wholeId]
  omega

/-- Whole numbers of ticks that do not go back are growing ids of that time. -/
theorem follows_of_whole {ids : List UInt64} (hscale : Monotone scale)
    (hmonotone : (c₀ :: cs).Pairwise fun a b => platform.ticks a ≤ platform.ticks b)
    (hsame : s.msgIdMsStart = platform.ticks c₀) (hlength : ids.length = cs.length)
    (hwhole : ∀ i c id, cs[i]? = some c → ids[i]? = some id →
      id.toNat = wholeId time rand (scale (ticksBetween platform c₀ c))
        (s.msgIdLocal.toNat + 4 * (i + 1))) :
    Follows platform scale c₀ time rand s cs ids := by
  obtain ⟨hle, hpairs⟩ := List.pairwise_cons.mp hmonotone
  have hat : ∀ i (h : i < ids.length), ∃ c, cs[i]? = some c ∧
      ids[i].toNat = wholeId time rand (scale (ticksBetween platform c₀ c))
        (s.msgIdLocal.toNat + 4 * (i + 1)) := fun i h => by
    have hc := List.getElem?_eq_getElem (hlength ▸ h)
    exact ⟨_, hc, hwhole i _ _ hc (List.getElem?_eq_getElem h)⟩
  refine ⟨?_, ?_, fun c hc => elapsedCount_toNat hsame (hle c hc), ?_⟩
  · refine List.pairwise_iff_getElem.mpr fun i j hi hj hij => ?_
    obtain ⟨c, hc, hci⟩ := hat i hi
    obtain ⟨d, hd, hdj⟩ := hat j hj
    have hcd : platform.ticks c ≤ platform.ticks d := by
      obtain ⟨hi', rfl⟩ := List.getElem?_eq_some_iff.mp hc
      obtain ⟨hj', rfl⟩ := List.getElem?_eq_some_iff.mp hd
      exact List.pairwise_iff_getElem.mp hpairs i j hi' hj' hij
    have hticks : ticksBetween platform c₀ c ≤ ticksBetween platform c₀ d :=
      Nat.sub_le_sub_right (UInt64.le_iff_toNat_le.mp hcd) _
    have hscaled := hscale hticks
    rw [UInt64.lt_iff_toNat_lt, hci, hdj, wholeId, wholeId]
    omega
  · intro id hid
    obtain ⟨i, hi, rfl⟩ := List.getElem_of_mem hid
    obtain ⟨c, -, hci⟩ := hat i hi
    have hfour := s.four
    rw [hci, wholeId]
    omega
  · intro i c id hc hid
    rw [hwhole i c id hc hid, wholeId_div]

/-- What comes from ids of the right time. -/
theorem fits_of_follows {ids : List UInt64} (hids : s.msgids platform scale cs = some ids)
    (h : Follows platform scale c₀ time rand s cs ids) : Fits platform scale c₀ time rand s cs := by
  intro i c hc
  obtain ⟨hi, -⟩ := List.getElem?_eq_some_iff.mp hc
  have hi' : i < ids.length := (length_of_msgids hids).symm ▸ hi
  have htime := h.time i c ids[i] hc (List.getElem?_eq_getElem hi')
  have hlt := ids[i].toNat_lt
  rw [← wholeId_div] at htime
  omega

/-- The count that was taken tells where it began. -/
theorem startTicks_of_elapsed (hms : s.msgIdMsStart = platform.startTicks c₀)
    (hle : platform.ticks c₀ ≤ platform.ticks c)
    (h : (s.elapsedCount platform c).toNat = ticksBetween platform c₀ c) :
    platform.startTicks c₀ = platform.ticks c₀ := by
  have hsub : s.elapsedCount platform c = platform.ticks c - platform.ticks c₀ :=
    UInt64.toNat_inj.mp (h.trans (UInt64.toNat_sub_of_le _ _ hle).symm)
  rw [elapsedCount, hms] at hsub
  exact (UInt64.sub_right_inj (platform.ticks c)).mp hsub

/-! ## After the time was set -/

/-- The time of the server, moved on by the seconds until the constants are set. -/
def setTime (serverTime : UInt32) (cSet c' : ClockReading) : UInt32 :=
  c'.time + (serverTime + 1 - cSet.time)

theorem unixtimeSet_spec (platform : Platform) (serverTime : UInt32) {force : Bool}
    (cSet c₀ c' : ClockReading) (msgIdRand : UInt32)
    (hset : force = true ∨ s.unixtimeWasSet = false) :
    (s.unixtimeSet platform serverTime force cSet c₀ c' msgIdRand).msgIdStart.toNat =
        (setTime serverTime cSet c').toNat * 2 ^ 32 + msgIdRand.toNat ∧
      (s.unixtimeSet platform serverTime force cSet c₀ c' msgIdRand).msgIdMsStart =
        platform.startTicks c₀ := by
  have htaken : ¬(¬force = true ∧ s.unixtimeWasSet = true) := by
    rintro ⟨hforce, hwas⟩
    rcases hset with hset | hset
    · exact hforce hset
    · exact absurd (hset.symm.trans hwas) (by decide)
  rw [unixtimeSet, if_neg htaken]
  exact ⟨toNat_joined _ _, rfl⟩

/-- The ids follow the clock from a setting of the time on exactly when the ticks were begun from
the clock that is read afterwards, and the ids need at most 64 bits. -/
theorem msgids_follow_iff (platform : Platform) (scale : ℕ → ℕ) (hscale : Monotone scale)
    (s : MsgIdClock) (serverTime : UInt32) (force : Bool) (cSet c₀ c' : ClockReading)
    (msgIdRand : UInt32) (hset : force = true ∨ s.unixtimeWasSet = false) (c : ClockReading)
    (cs : List ClockReading)
    (hmonotone : (c₀ :: c :: cs).Pairwise fun a b => platform.ticks a ≤ platform.ticks b) :
    (∃ ids, (s.unixtimeSet platform serverTime force cSet c₀ c' msgIdRand).msgids platform scale
          (c :: cs) = some ids ∧
        Follows platform scale c₀ (setTime serverTime cSet c').toNat msgIdRand.toNat
          (s.unixtimeSet platform serverTime force cSet c₀ c' msgIdRand) (c :: cs) ids) ↔
      platform.startTicks c₀ = platform.ticks c₀ ∧
        Fits platform scale c₀ (setTime serverTime cSet c').toNat msgIdRand.toNat
          (s.unixtimeSet platform serverTime force cSet c₀ c' msgIdRand) (c :: cs) := by
  obtain ⟨hstart, hms⟩ := unixtimeSet_spec platform serverTime cSet c₀ c' msgIdRand hset
  obtain ⟨hle, -⟩ := List.pairwise_cons.mp hmonotone
  constructor
  · rintro ⟨ids, hids, hfollows⟩
    exact ⟨startTicks_of_elapsed hms (hle c (by simp)) (hfollows.elapsed c (by simp)),
      fits_of_follows hids hfollows⟩
  · rintro ⟨hsame, hfits⟩
    rw [hsame] at hms
    obtain ⟨ids, hids, hwhole⟩ := msgids_whole hstart hms hle hfits
    exact ⟨ids, hids, follows_of_whole hscale hmonotone hms (length_of_msgids hids) hwhole⟩

/-- The time is set with all clocks read at once. -/
def setAt (platform : Platform) (c : ClockReading) : MsgIdClock :=
  start.unixtimeSet platform 1530000000 false c c c 9

def winStart : ClockReading := ⟨1530000000, 50, 0, 0⟩
def winLater : ClockReading := ⟨1530000001, 10000050, 0, 0⟩

/-- The counter runs at ten million ticks a second. -/
def winScale (n : ℕ) : ℕ := n * 0xFFFF0000 / 10000000

theorem msgids_follow_iff_win :
    (∃ ids, (setAt .win winStart).msgids .win winScale [winLater, winLater] = some ids ∧
        Follows .win winScale winStart (setTime 1530000000 winStart winStart).toNat
          (9 : UInt32).toNat (setAt .win winStart) [winLater, winLater] ids) ↔
      Platform.win.startTicks winStart = Platform.win.ticks winStart ∧
        Fits .win winScale winStart (setTime 1530000000 winStart winStart).toNat
          (9 : UInt32).toNat (setAt .win winStart) [winLater, winLater] :=
  msgids_follow_iff .win winScale (fun _ _ h => Nat.div_le_div_right (Nat.mul_le_mul_right _ h))
    start 1530000000 false winStart winStart winStart 9 (.inr rfl) winLater [winLater] (by decide)

/-- A thousand seconds after the machine was started. -/
def otherStart : ClockReading := ⟨1530000000, 0, 1530000000000000000, 1000000000000⟩
def otherLater : ClockReading := ⟨1530000001, 0, 1530000001000000000, 1001000000000⟩

def otherScale (n : ℕ) : ℕ := n * 0xFFFF0000 / 1000000000

/-- The count begins at the time of day and goes on with the time since the start. -/
theorem msgids_other_clock :
    ¬∃ ids, (setAt .other otherStart).msgids .other otherScale [otherLater] = some ids ∧
      Follows .other otherScale otherStart (setTime 1530000000 otherStart otherStart).toNat
        (9 : UInt32).toNat (setAt .other otherStart) [otherLater] ids := by
  rintro ⟨ids, -, hfollows⟩
  have helapsed := hfollows.elapsed otherLater (by simp)
  exact absurd helapsed (by decide)

end MsgIdClock

end Bettergram.Core
