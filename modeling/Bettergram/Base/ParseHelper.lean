import Mathlib.Data.List.Basic

/-! # Stripping comments

The text of a file goes through `stripComments` before it is read. The stripper
has its own idea of where a string ends: a quote is escaped when one backslash
stands before it, and not two.
-/

namespace Bettergram.Base.Parse

def chQuote : UInt8 := 0x22
def chBackslash : UInt8 := 0x5C
def chNewline : UInt8 := 0x0A
def chReturn : UInt8 := 0x0D
def chTab : UInt8 := 0x09
def chSpace : UInt8 := 0x20
def chSlash : UInt8 := 0x2F
def chAsterisk : UInt8 := 0x2A

inductive InsideComment
  | none
  | singleLine
  | multiLine
deriving DecidableEq

/-- The stripper at a character: `before` is what it passed, the last first, and
`pending` what it passed since `offset`. -/
structure Strip where
  before : List UInt8
  insideComment : InsideComment
  insideString : Bool
  pending : List UInt8
  result : List UInt8
deriving DecidableEq

namespace Strip

/-- `++ch` -/
def pass (s : Strip) (c : UInt8) : Strip :=
  { s with before := c :: s.before, pending := s.pending ++ [c] }

def feedContent (s : Strip) : Strip :=
  { s with result := s.result ++ s.pending, pending := [] }

def feedComment (s : Strip) : Strip :=
  { s with result := if s.pending = [] then s.result else s.result ++ [chSpace], pending := [] }

/-- Whether the quote that comes next is escaped. -/
def escaped (s : Strip) : Bool :=
  s.before.head? = some chBackslash && s.before.tail.head? ≠ some chBackslash

def quoted (s : Strip) (c : UInt8) : Strip :=
  { s with
    insideString :=
      if s.insideComment = .none ∧ c = chQuote ∧ s.escaped = false then !s.insideString
      else s.insideString }

/-- One round of the loop, and whether it took the next character as well. -/
def round (s : Strip) (currentChar nextChar : UInt8) : Strip × Bool :=
  let s := s.quoted currentChar
  if s.insideString then (s.pass currentChar, false)
  else if s.insideComment = .none ∧ currentChar = chSlash ∧ nextChar = chSlash then
    (({ s.feedContent with insideComment := .singleLine }.pass currentChar).pass nextChar, true)
  else if s.insideComment = .singleLine ∧ currentChar = chReturn ∧ nextChar = chNewline then
    (({ s.feedComment with insideComment := .none }.pass currentChar).pass nextChar, true)
  else if s.insideComment = .singleLine ∧ currentChar = chNewline then
    ({ s.feedComment with insideComment := .none }.pass currentChar, false)
  else if s.insideComment = .none ∧ currentChar = chSlash ∧ nextChar = chAsterisk then
    (({ s.feedContent with insideComment := .multiLine }.pass currentChar).pass nextChar, true)
  else if s.insideComment = .multiLine ∧ currentChar = chAsterisk ∧ nextChar = chSlash then
    ({ ((s.pass currentChar).pass nextChar).feedComment with insideComment := .none }, true)
  else if s.insideComment = .multiLine ∧ currentChar = chReturn ∧ nextChar = chNewline then
    (((s.feedComment.pass currentChar).pass nextChar).feedContent, true)
  else if s.insideComment = .multiLine ∧ currentChar = chNewline then
    ((s.feedComment.pass currentChar).feedContent, false)
  else (s.pass currentChar, false)

/-- The loop; at the last character the next one counts as 0. -/
def loop : Strip → List UInt8 → Strip
  | s, [] => s
  | s, [c] => (s.round c 0).1
  | s, c :: d :: rest =>
    if (s.round c d).2 then loop (s.round c d).1 rest else loop (s.round c d).1 (d :: rest)

/-- What is left after the loop goes to the result. -/
def finish (s : Strip) (content : List UInt8) : List UInt8 :=
  if s.insideComment = .none ∧ s.pending ≠ [] then
    if s.result = [] then content else s.result ++ s.pending
  else s.result

/-- The stripper before the first comment. -/
def plain (before : List UInt8) (insideString : Bool) : Strip where
  before
  insideComment := .none
  insideString
  pending := before.reverse
  result := []

end Strip

def stripComments (content : List UInt8) : List UInt8 :=
  ((Strip.plain [] false).loop content).finish content

def isWhitespace (c : UInt8) : Bool :=
  c = chSpace || c = chNewline || c = chTab || c = chReturn

def skipWhitespaces (text : List UInt8) : List UInt8 := text.dropWhile isWhitespace

/-! ### What the stripper leaves -/

/-- A comment begins with these characters. -/
def startsComment : List UInt8 → Bool
  | c :: d :: _ => c = chSlash && (d = chSlash || d = chAsterisk)
  | _ => false

namespace Strip

/-- Whether the stripper is inside a string after a character. -/
def turned (before : List UInt8) (insideString : Bool) (c : UInt8) : Bool :=
  ((plain before insideString).quoted c).insideString

theorem plain_quoted (before : List UInt8) (inside : Bool) (c : UInt8) :
    (plain before inside).quoted c = plain before (turned before inside c) := rfl

theorem plain_pass (before : List UInt8) (inside : Bool) (c : UInt8) :
    (plain before inside).pass c = plain (c :: before) inside := by
  simp [plain, pass]

/-- A character that begins no comment is passed. -/
theorem plain_round {before : List UInt8} {inside : Bool} {c d : UInt8}
    (h : turned before inside c = true ∨
      ¬ (c = chSlash ∧ (d = chSlash ∨ d = chAsterisk))) :
    (plain before inside).round c d =
      (plain (c :: before) (turned before inside c), false) := by
  rw [round]
  dsimp only
  rw [plain_quoted]
  by_cases hinside : turned before inside c = true
  · rw [if_pos (by exact hinside), plain_pass]
  · have hno := h.resolve_left hinside
    have hother : ∀ k : InsideComment, k ≠ .none →
        (plain before (turned before inside c)).insideComment ≠ k := fun k hk h => hk h.symm
    have hsingle := hother .singleLine (by decide)
    have hmulti := hother .multiLine (by decide)
    rw [if_neg (by exact hinside), if_neg (fun hc => hno ⟨hc.2.1, .inl hc.2.2⟩),
      if_neg (fun hc => hsingle hc.1), if_neg (fun hc => hsingle hc.1),
      if_neg (fun hc => hno ⟨hc.2.1, .inr hc.2.2⟩), if_neg (fun hc => hmulti hc.1),
      if_neg (fun hc => hmulti hc.1), if_neg (fun hc => hmulti hc.1), plain_pass]

theorem plain_loop_cons {before : List UInt8} {inside : Bool} {c : UInt8} {rest : List UInt8}
    (h : turned before inside c = true ∨ startsComment (c :: rest) = false) :
    (plain before inside).loop (c :: rest) =
      (plain (c :: before) (turned before inside c)).loop rest := by
  cases rest with
  | nil =>
    have hround : (plain before inside).round c 0 = _ :=
      plain_round (.inr (by simp [chSlash, chAsterisk]))
    rw [loop, loop, hround]
  | cons d rest =>
    have hround : (plain before inside).round c d = _ :=
      plain_round (h.imp_right fun h => by simpa [startsComment] using h)
    rw [loop, hround]
    rfl

/-- The result only grows. -/
theorem round_result (s : Strip) (c d : UInt8) : ∃ t, (s.round c d).1.result = s.result ++ t := by
  have hquoted : (s.quoted c).result = s.result := rfl
  have hcomment : ∀ s : Strip, ∃ t, s.feedComment.result = s.result ++ t := by
    intro s
    unfold feedComment
    split
    · exact ⟨[], (List.append_nil _).symm⟩
    · exact ⟨[chSpace], rfl⟩
  rw [round, ← hquoted]
  generalize s.quoted c = s
  dsimp only
  split_ifs
  · exact ⟨[], (List.append_nil _).symm⟩
  · exact ⟨s.pending, rfl⟩
  · exact hcomment s
  · exact hcomment s
  · exact ⟨s.pending, rfl⟩
  · exact hcomment ((s.pass c).pass d)
  · obtain ⟨t, ht⟩ := hcomment s
    exact ⟨t ++ ((s.feedComment.pass c).pass d).pending, by
      rw [← List.append_assoc, ← ht]; rfl⟩
  · obtain ⟨t, ht⟩ := hcomment s
    exact ⟨t ++ (s.feedComment.pass c).pending, by rw [← List.append_assoc, ← ht]; rfl⟩
  · exact ⟨[], (List.append_nil _).symm⟩

theorem loop_result (s : Strip) (text : List UInt8) :
    ∃ t, (s.loop text).result = s.result ++ t := by
  fun_induction loop s text with
  | case1 s => exact ⟨[], (List.append_nil _).symm⟩
  | case2 s c => exact round_result s c 0
  | case3 s c d rest htwo ih =>
    obtain ⟨t, ht⟩ := round_result s c d
    obtain ⟨t', ht'⟩ := ih
    exact ⟨t ++ t', by rw [ht', ht, List.append_assoc]⟩
  | case4 s c d rest hone ih =>
    obtain ⟨t, ht⟩ := round_result s c d
    obtain ⟨t', ht'⟩ := ih
    exact ⟨t ++ t', by rw [ht', ht, List.append_assoc]⟩

/-- In a comment a character either ends up as a space, or the comment goes on. -/
theorem comment_round {s : Strip} {c d : UInt8} (hcomment : s.insideComment ≠ .none)
    (hstring : s.insideString = false) (hpending : s.pending ≠ []) :
    (∃ t, (s.round c d).1.result = s.result ++ chSpace :: t) ∨
      (c ≠ chNewline ∧ s.round c d = (s.pass c, false)) := by
  have hquoted : s.quoted c = s := by
    simp [quoted, hcomment]
  have hfed : s.feedComment.result = s.result ++ [chSpace] := by
    rw [feedComment]
    exact if_neg hpending
  have hfed' : ((s.pass c).pass d).feedComment.result = s.result ++ [chSpace] := by
    rw [feedComment]
    exact if_neg (by simp [pass])
  rw [round, hquoted]
  dsimp only
  rw [if_neg (by simp [hstring])]
  split_ifs with h1 h2 h3 h4 h5 h6 h7
  · exact absurd h1.1 hcomment
  · exact .inl ⟨[], hfed⟩
  · exact .inl ⟨[], hfed⟩
  · exact absurd h4.1 hcomment
  · exact .inl ⟨[], hfed'⟩
  · exact .inl ⟨_, by
      rw [show ((s.feedComment.pass c).pass d).feedContent.result = s.feedComment.result ++
        ((s.feedComment.pass c).pass d).pending from rfl, hfed, List.append_assoc]
      rfl⟩
  · exact .inl ⟨_, by
      rw [show (s.feedComment.pass c).feedContent.result = s.feedComment.result ++
        (s.feedComment.pass c).pending from rfl, hfed, List.append_assoc]
      rfl⟩
  · refine .inr ⟨?_, rfl⟩
    rintro rfl
    cases hs : s.insideComment with
    | none => exact hcomment hs
    | singleLine => exact h3 ⟨hs, rfl⟩
    | multiLine => exact h7 ⟨hs, rfl⟩

/-- A comment that ends with its line, or before, becomes a space. -/
theorem comment_loop {s : Strip} {text : List UInt8} (hcomment : s.insideComment ≠ .none)
    (hstring : s.insideString = false) (hpending : s.pending ≠ []) (hline : chNewline ∈ text) :
    ∃ t, (s.loop text).result = s.result ++ chSpace :: t := by
  have hgrown : ∀ (s' : Strip) (text : List UInt8), (∃ t, s'.result = s.result ++ chSpace :: t) →
      ∃ t, (s'.loop text).result = s.result ++ chSpace :: t := by
    intro s' text ⟨t, ht⟩
    obtain ⟨t', ht'⟩ := loop_result s' text
    exact ⟨t ++ t', by rw [ht', ht, List.append_assoc, List.cons_append]⟩
  fun_induction loop s text with
  | case1 s => cases hline
  | case2 s c =>
    obtain hfed | ⟨hne, -⟩ := comment_round (c := c) (d := 0) hcomment hstring hpending
    · exact hfed
    · exact absurd (List.mem_singleton.mp hline).symm hne
  | case3 s c d rest htwo ih =>
    obtain hfed | ⟨-, heq⟩ := comment_round (c := c) (d := d) hcomment hstring hpending
    · exact hgrown _ _ hfed
    · rw [heq] at htwo
      cases htwo
  | case4 s c d rest hone ih =>
    obtain hfed | ⟨hne, heq⟩ := comment_round (c := c) (d := d) hcomment hstring hpending
    · exact hgrown _ _ hfed
    · rw [heq] at ih ⊢
      exact ih hcomment hstring (by simp [pass])
        ((List.mem_cons.mp hline).resolve_left hne.symm) hgrown

theorem finish_result (s : Strip) (content r t : List UInt8)
    (h : s.result = r ++ chSpace :: t) : ∃ t', s.finish content = r ++ chSpace :: t' := by
  rw [finish]
  split_ifs with h1 h2
  · rw [h2] at h
    simp at h
  · exact ⟨t ++ s.pending, by rw [h, List.append_assoc, List.cons_append]⟩
  · exact ⟨t, h⟩

/-- What is stripped when the first comment begins in the middle of a line. -/
theorem plain_loop_comment (before content : List UInt8) {text : List UInt8}
    (hstarts : startsComment text = true) (hline : chNewline ∈ text) :
    ∃ t, ((plain before false).loop text).finish content = before.reverse ++ chSpace :: t := by
  obtain ⟨c, d, rest, rfl⟩ : ∃ c d rest, text = c :: d :: rest := by
    cases text with
    | nil => cases hstarts
    | cons c text =>
      cases text with
      | nil => cases hstarts
      | cons d rest => exact ⟨c, d, rest, rfl⟩
  simp only [startsComment, Bool.and_eq_true, Bool.or_eq_true, decide_eq_true_eq] at hstarts
  obtain ⟨rfl, hd⟩ := hstarts
  have hrest : chNewline ∈ rest := by
    simp only [List.mem_cons] at hline
    obtain h | h | h := hline
    · simp [chNewline, chSlash] at h
    · obtain rfl | rfl := hd <;> simp [chNewline, chSlash, chAsterisk] at h
    · exact h
  obtain ⟨s, hround, hcomment, hstring, hpending, hresult⟩ :
      ∃ s, (plain before false).round chSlash d = (s, true) ∧ s.insideComment ≠ .none ∧
        s.insideString = false ∧ s.pending ≠ [] ∧ s.result = before.reverse := by
    obtain rfl | rfl := hd
    · refine ⟨_, by rw [round]; rfl, ?_, rfl, ?_, ?_⟩ <;> simp [pass, feedContent, plain, quoted]
    · refine ⟨_, by rw [round]; rfl, ?_, rfl, ?_, ?_⟩ <;> simp [pass, feedContent, plain, quoted]
  obtain ⟨t, ht⟩ := comment_loop hcomment hstring hpending hrest
  rw [loop, hround, if_pos rfl]
  exact finish_result _ _ _ t (by rw [ht, hresult])

/-- Without a comment the content stays as it is. -/
theorem plain_finish (before content : List UInt8) (inside : Bool) (h : before.reverse = content) :
    (plain before inside).finish content = content := by
  rw [finish]
  split_ifs with h1 h2
  · rfl
  · exact absurd rfl h2
  · simp only [plain, h, true_and, not_not] at h1
    rw [h1]
    rfl

end Strip

end Bettergram.Base.Parse
