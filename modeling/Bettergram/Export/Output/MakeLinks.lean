import Bettergram.Foundation.Loops
import Bettergram.Foundation.Utf8

/-! # Links of the HTML export

The loop looks for the domain from an offset and wraps what it finds, unless it
begins at the offset. A link ends before a character that is none of a link's, so
that no domain begins where a link ends.
-/

namespace Bettergram.Export.Output.MakeLinks
open Foundation

def domain : List UInt8 := ascii "https://bettergram.io"

def isLinkChar (ch : UInt8) : Bool :=
  (0x61 ≤ ch && ch ≤ 0x7A) || (0x41 ≤ ch && ch ≤ 0x5A) || (0x30 ≤ ch && ch ≤ 0x39) || ch = 0x2D ||
    ch = 0x5F || ch = 0x2F

/-- The first place of the pattern. -/
def indexOf (pattern : List UInt8) : List UInt8 → Option ℕ
  | [] => none
  | ch :: rest =>
    if pattern.isPrefixOf (ch :: rest) then some 0 else (indexOf pattern rest).map (· + 1)

def anchor (link : List UInt8) : List UInt8 :=
  ascii "<a href=\"" ++ link ++ ascii "\">" ++ link ++ ascii "</a>"

structure State where
  result : List UInt8
  offset : ℕ
deriving DecidableEq

variable (value : List UInt8)

/-- The end of the link that begins with the domain at `start`. -/
def linkEnd (start : ℕ) : ℕ :=
  start + domain.length + ((value.drop (start + domain.length)).takeWhile isLinkChar).length

def mid (start length : ℕ) : List UInt8 := (value.drop start).take length

def turn (s : State) : Turn State State :=
  match indexOf domain (value.drop s.offset) with
  | none => .done s
  | some place =>
    let start := s.offset + place
    let stop := linkEnd value start
    if s.offset < start then
      .next ⟨s.result ++ mid value s.offset (start - s.offset) ++
        anchor (mid value start (stop - start)), stop⟩
    else .next s

/-- What is returned after the loop. -/
def finish (s : State) : List UInt8 :=
  if s.result = [] then value
  else if s.offset < value.length then s.result ++ value.drop s.offset
  else s.result

/-- `none` when the turns are not enough. -/
def MakeLinks (turns : ℕ) : Option (List UInt8) :=
  (loop (turn value) turns ⟨[], 0⟩).map (finish value)

/-! ## What is wanted -/

/-- A link and the text before it. -/
structure Piece where
  text : List UInt8
  run : List UInt8

def Piece.plain (piece : Piece) : List UInt8 := piece.text ++ (domain ++ piece.run)

def Piece.wrapped (piece : Piece) : List UInt8 := piece.text ++ anchor (domain ++ piece.run)

def plain (pieces : List Piece) (last : List UInt8) : List UInt8 :=
  pieces.flatMap Piece.plain ++ last

def wrapped (pieces : List Piece) (last : List UInt8) : List UInt8 :=
  pieces.flatMap Piece.wrapped ++ last

/-- Each domain that is found behind the link before it is the domain of a piece, with all
characters of a link that follow it. -/
def Recognised (last : List UInt8) : List Piece → Prop
  | [] => indexOf domain last = none
  | piece :: pieces =>
    indexOf domain (plain (piece :: pieces) last) = some piece.text.length ∧
      (piece.run ++ plain pieces last).takeWhile isLinkChar = piece.run ∧ Recognised last pieces

/-- The links of the value are wrapped, each one once, and nothing else is changed. -/
def Right (result : List UInt8) : Prop :=
  ∃ pieces last, value = plain pieces last ∧ result = wrapped pieces last ∧ Recognised last pieces

/-! ## The search -/

theorem domain_ne_nil : domain ≠ [] := by decide

theorem indexOf_eq_zero_iff {pattern : List UInt8} (hpattern : pattern ≠ []) (text : List UInt8) :
    indexOf pattern text = some 0 ↔ pattern <+: text := by
  cases text with
  | nil => simp [indexOf, List.prefix_nil, hpattern]
  | cons ch rest =>
    rw [indexOf]
    split_ifs with h
    · simpa using h
    · simpa using h

/-- The pattern stands where it is found. -/
theorem indexOf_spec {pattern text : List UInt8} {place : ℕ} (h : indexOf pattern text = some place) :
    ∃ behind, text = text.take place ++ (pattern ++ behind) ∧ place ≤ text.length := by
  induction text generalizing place with
  | nil => simp [indexOf] at h
  | cons ch rest ih =>
    rw [indexOf] at h
    split_ifs at h with hprefix
    · obtain rfl := Option.some.inj h
      obtain ⟨behind, hbehind⟩ := List.isPrefixOf_iff_prefix.mp hprefix
      exact ⟨behind, hbehind.symm, Nat.zero_le _⟩
    · obtain ⟨place', hplace, rfl⟩ := Option.map_eq_some_iff.mp h
      obtain ⟨behind, hbehind, hle⟩ := ih hplace
      exact ⟨behind, by rw [List.take_succ_cons, List.cons_append, ← hbehind],
        Nat.succ_le_succ hle⟩

/-- No domain begins behind the characters of a link. -/
theorem not_prefix_dropWhile (text : List UInt8) : ¬domain <+: text.dropWhile isLinkChar := by
  rintro ⟨behind, hbehind⟩
  have hhead := List.head?_dropWhile_not isLinkChar text
  rw [← hbehind] at hhead
  have hfirst : (domain ++ behind).head? = some 0x68 := rfl
  rw [hfirst] at hhead
  exact absurd hhead (by decide)

/-! ## A turn -/

/-- What a turn does for a link that it finds behind the offset. -/
structure Wraps (s s' : State) (piece : Piece) : Prop where
  text : value.drop s.offset = piece.plain ++ value.drop s'.offset
  result : s'.result = s.result ++ piece.wrapped
  found : indexOf domain (value.drop s.offset) = some piece.text.length
  run : (piece.run ++ value.drop s'.offset).takeWhile isLinkChar = piece.run
  further : s.offset < s'.offset
  inside : s'.offset ≤ value.length
  next : ¬domain <+: value.drop s'.offset

variable {value}

theorem turn_cases {s : State} (hs : ¬domain <+: value.drop s.offset) :
    (turn value s = .done s ∧ indexOf domain (value.drop s.offset) = none) ∨
      ∃ s' piece, turn value s = .next s' ∧ Wraps value s s' piece := by
  rw [turn]
  cases hfind : indexOf domain (value.drop s.offset) with
  | none => exact .inl ⟨rfl, rfl⟩
  | some place =>
    right
    have hpos : 0 < place := by
      refine Nat.pos_of_ne_zero fun hzero => hs ?_
      rw [← indexOf_eq_zero_iff domain_ne_nil, hfind, hzero]
    obtain ⟨behind, hbehind, hle⟩ := indexOf_spec hfind
    rw [List.length_drop] at hle
    have hstart : value.drop (s.offset + place) = domain ++ behind := by
      rw [← List.drop_drop, hbehind]
      exact List.drop_left' (by rw [List.length_take, List.length_drop, min_eq_left hle])
    have hrun : behind.take (behind.takeWhile isLinkChar).length = behind.takeWhile isLinkChar :=
      (List.prefix_iff_eq_take.mp (List.takeWhile_prefix isLinkChar)).symm
    have hbeyond : behind.drop (behind.takeWhile isLinkChar).length =
        behind.dropWhile isLinkChar := by
      have hsplit := List.take_append_drop (behind.takeWhile isLinkChar).length behind
      rw [hrun] at hsplit
      exact List.append_cancel_left (hsplit.trans List.takeWhile_append_dropWhile.symm)
    have hrest : value.drop (s.offset + place + domain.length) = behind := by
      rw [← List.drop_drop, hstart, List.drop_left]
    have hstop : linkEnd value (s.offset + place) =
        s.offset + place + (domain.length + (behind.takeWhile isLinkChar).length) := by
      rw [linkEnd, hrest, Nat.add_assoc]
    have hdrop : value.drop (linkEnd value (s.offset + place)) = behind.dropWhile isLinkChar := by
      rw [hstop, ← Nat.add_assoc, ← List.drop_drop, hrest, hbeyond]
    have hlink : mid value (s.offset + place)
        (linkEnd value (s.offset + place) - (s.offset + place)) =
          domain ++ behind.takeWhile isLinkChar := by
      rw [mid, hstart, hstop, Nat.add_sub_cancel_left, List.take_length_add_append, hrun]
    have htext : mid value s.offset (s.offset + place - s.offset) =
        (value.drop s.offset).take place := by
      rw [mid, Nat.add_sub_cancel_left]
    have hlength : ((value.drop s.offset).take place).length = place := by
      rw [List.length_take, List.length_drop, min_eq_left hle]
    refine ⟨_, ⟨(value.drop s.offset).take place, behind.takeWhile isLinkChar⟩,
      if_pos (by omega), ?_, ?_, ?_, ?_, ?_, ?_, ?_⟩
    · rw [hdrop, Piece.plain, List.append_assoc, List.append_assoc,
        List.takeWhile_append_dropWhile]
      exact hbehind
    · rw [htext, hlink, Piece.wrapped, List.append_assoc]
    · rw [hfind, hlength]
    · rw [hdrop, List.takeWhile_append_dropWhile]
    · change s.offset < linkEnd value (s.offset + place)
      omega
    · have hfull := congrArg List.length hstart
      have hlinkChars := (List.takeWhile_prefix isLinkChar (l := behind)).length_le
      rw [List.length_drop, List.length_append] at hfull
      change linkEnd value (s.offset + place) ≤ value.length
      rw [hstop]
      have hdomain : 0 < domain.length := by decide
      omega
    · rw [hdrop]
      exact not_prefix_dropWhile behind

/-! ## The loop -/

/-- What the loop comes to: the links from the offset on are wrapped. -/
theorem loop_wraps {turns : ℕ} {s t : State} (hs : ¬domain <+: value.drop s.offset)
    (h : loop (turn value) turns s = some t) :
    ∃ pieces, t.result = s.result ++ wrapped pieces [] ∧
      value.drop s.offset = plain pieces (value.drop t.offset) ∧
      Recognised (value.drop t.offset) pieces := by
  induction turns generalizing s with
  | zero => simp [loop] at h
  | succ turns ih =>
    obtain ⟨hdone, hnone⟩ | ⟨s', piece, hnext, hwraps⟩ := turn_cases hs
    · rw [loop_done hdone] at h
      obtain rfl := Option.some.inj h
      exact ⟨[], by simp [wrapped], by simp [plain], hnone⟩
    · rw [loop_next hnext] at h
      obtain ⟨pieces, hresult, htext, hrecognised⟩ := ih hwraps.next h
      have hplain : value.drop s.offset = plain (piece :: pieces) (value.drop t.offset) := by
        rw [hwraps.text, htext, plain, plain, List.flatMap_cons, List.append_assoc]
      refine ⟨piece :: pieces, ?_, hplain, ?_, ?_, hrecognised⟩
      · rw [hresult, hwraps.result, wrapped, wrapped, List.flatMap_cons]
        simp
      · rw [← hplain, hwraps.found]
      · rw [← htext, hwraps.run]

theorem makeLinks_ends (hvalue : ¬domain <+: value) : Ends (turn value) ⟨[], 0⟩ := by
  refine ends_of_less (measure (fun n : ℕ => n)).wf (fun s : State => value.length - s.offset)
    fun s s' hreached hnext => ?_
  have hs : ¬domain <+: value.drop s.offset := by
    refine reached_invariant (P := fun s : State => ¬domain <+: value.drop s.offset)
      (fun t t' ht hturn => ?_) (by rwa [List.drop_zero]) hreached
    obtain ⟨hdone, -⟩ | ⟨t'', piece, hturn', hwraps⟩ := turn_cases ht
    · rw [hdone] at hturn
      cases hturn
    · rw [hturn'] at hturn
      cases hturn
      exact hwraps.next
  obtain ⟨hdone, -⟩ | ⟨t, piece, hturn, hwraps⟩ := turn_cases hs
  · rw [hdone] at hnext
    cases hnext
  · rw [hturn] at hnext
    cases hnext
    have := hwraps.further
    have := hwraps.inside
    change value.length - s'.offset < value.length - s.offset
    omega

/-- A value that begins with the domain is looked at for ever. -/
theorem makeLinks_stays (hvalue : domain <+: value) : ¬Ends (turn value) ⟨[], 0⟩ := by
  refine not_ends_of_stays (P := fun s : State => s = ⟨[], 0⟩) (fun s hs => ?_) .refl rfl
  subst hs
  refine ⟨⟨[], 0⟩, ?_, rfl⟩
  have hfind : indexOf domain (value.drop 0) = some 0 := (indexOf_eq_zero_iff domain_ne_nil _).mpr hvalue
  rw [turn]
  dsimp only
  rw [hfind]
  rfl

theorem right_finish {t : State} {pieces : List Piece} (hresult : t.result = wrapped pieces [])
    (htext : value = plain pieces (value.drop t.offset))
    (hrecognised : Recognised (value.drop t.offset) pieces) : Right value (finish value t) := by
  refine ⟨pieces, value.drop t.offset, htext, ?_, hrecognised⟩
  have hwrapped : wrapped pieces (value.drop t.offset) = t.result ++ value.drop t.offset := by
    simp [hresult, wrapped]
  rw [hwrapped, finish]
  split_ifs with hempty hrest
  · cases pieces with
    | nil =>
      rw [hempty, List.nil_append]
      exact htext
    | cons piece pieces =>
      rw [hresult] at hempty
      simp [wrapped, Piece.wrapped, anchor, ascii] at hempty
  · rfl
  · rw [List.drop_of_length_le (not_lt.mp hrest), List.append_nil]

/-- The loop ends, and has wrapped the links, exactly for a value that does not begin with one. -/
theorem makeLinks_right_iff (value : List UInt8) :
    (∃ turns result, MakeLinks value turns = some result ∧ Right value result) ↔
      ¬domain <+: value := by
  constructor
  · rintro ⟨turns, result, hloop, -⟩ hvalue
    obtain ⟨t, ht, -⟩ := Option.map_eq_some_iff.mp hloop
    exact makeLinks_stays hvalue ⟨turns, t, ht⟩
  · intro hvalue
    obtain ⟨turns, t, ht⟩ := makeLinks_ends hvalue
    obtain ⟨pieces, hresult, htext, hrecognised⟩ :=
      loop_wraps (s := ⟨[], 0⟩) (by rwa [List.drop_zero]) ht
    exact ⟨turns, finish value t, by rw [MakeLinks, ht]; rfl,
      right_finish (by simpa using hresult) htext hrecognised⟩

/-- The domain alone. -/
theorem makeLinks_domain :
    ¬∃ turns result, MakeLinks domain turns = some result ∧ Right domain result := by
  rintro ⟨turns, result, hloop, -⟩
  obtain ⟨t, ht, -⟩ := Option.map_eq_some_iff.mp hloop
  exact makeLinks_stays List.prefix_rfl ⟨turns, t, ht⟩

end Bettergram.Export.Output.MakeLinks
