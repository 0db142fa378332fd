import Bettergram.Base.CommentSource
import Mathlib.Order.Nat

/-! # Rounds of the stripper

What the stripper has put out and what is still pending stay where they are: later
rounds append to them.
-/

namespace Bettergram.Base.Parse.Strip

variable {s : Strip} {before out : List UInt8} {inside : Bool} {c d : UInt8} {r : List UInt8}

/-- What goes to the result when nothing else comes. -/
def kept (s : Strip) : List UInt8 :=
  if s.insideComment = .none then s.result ++ s.pending else s.result

/-- The stripper outside of comments: what it passed, the last first, what it leaves so far, and
whether it takes itself to be in a string. -/
structure Outside (s : Strip) (before out : List UInt8) (inside : Bool) : Prop where
  comment : s.insideComment = .none
  string : s.insideString = inside
  passed : s.before = before
  output : s.result ++ s.pending = out
  whole : s.result = [] → s.pending = before.reverse

/-- Whether a quote is taken to be escaped. -/
def escapedBy (before : List UInt8) : Bool :=
  before.head? = some chBackslash && before.tail.head? ≠ some chBackslash

def turnedBy (before : List UInt8) (inside : Bool) (c : UInt8) : Bool :=
  if c = chQuote ∧ escapedBy before = false then !inside else inside

theorem loop_of_one {s' : Strip} (h : s.round c (r.headD 0) = (s', false)) :
    s.loop (c :: r) = s'.loop r := by
  cases r with
  | nil =>
    rw [loop, loop]
    exact congrArg Prod.fst h
  | cons d r =>
    rw [List.headD_cons] at h
    rw [loop, h]
    rfl

theorem loop_of_two {s' : Strip} (h : s.round c d = (s', true)) :
    s.loop (c :: d :: r) = s'.loop r := by
  rw [loop, h]
  rfl

/-! ## Outside of comments -/

/-- A character that begins no comment, or that is in a string. -/
theorem Outside.pass (hs : s.Outside before out inside)
    (h : turnedBy before inside c = true ∨ startsComment (c :: r) = false) :
    ∃ s' : Strip, s.loop (c :: r) = s'.loop r ∧
      s'.Outside (c :: before) (out ++ [c]) (turnedBy before inside c) := by
  obtain ⟨hcomment, hstring, hpassed, houtput, hwhole⟩ := hs
  have hquoted : s.quoted c = { s with insideString := turnedBy before inside c } := by
    simp [quoted, hcomment, escaped, hpassed, hstring, turnedBy, escapedBy]
  refine ⟨{ s with insideString := turnedBy before inside c }.pass c, loop_of_one ?_, ?_⟩
  · have hother : ∀ k : InsideComment, k ≠ .none → s.insideComment ≠ k :=
      fun k hk hs => hk (hs.symm.trans hcomment)
    have hsingle := hother .singleLine (by decide)
    have hmulti := hother .multiLine (by decide)
    rw [round, hquoted]
    dsimp only
    by_cases hinside : turnedBy before inside c = true
    · rw [if_pos hinside]
    have hno : ¬(c = chSlash ∧ (r.headD 0 = chSlash ∨ r.headD 0 = chAsterisk)) := by
      rintro ⟨rfl, hd⟩
      have hstart := h.resolve_left hinside
      cases r with
      | nil => simp [chSlash, chAsterisk] at hd
      | cons d r =>
        rw [List.headD_cons] at hd
        obtain rfl | rfl := hd <;> simp [startsComment] at hstart
    rw [if_neg hinside, if_neg fun hc => hno ⟨hc.2.1, .inl hc.2.2⟩, if_neg fun hc => hsingle hc.1,
      if_neg fun hc => hsingle hc.1, if_neg fun hc => hno ⟨hc.2.1, .inr hc.2.2⟩,
      if_neg fun hc => hmulti hc.1, if_neg fun hc => hmulti hc.1, if_neg fun hc => hmulti hc.1]
  · refine ⟨hcomment, rfl, ?_, ?_, fun hempty => ?_⟩
    · rw [Strip.pass, hpassed]
    · rw [Strip.pass, ← List.append_assoc, houtput]
    · rw [Strip.pass, hwhole hempty, List.reverse_cons]

theorem turnedBy_of_ne (hc : c ≠ chQuote) : turnedBy before inside c = inside :=
  if_neg fun h => hc h.1

/-- The two characters that begin a comment outside of a string. -/
theorem Outside.start (hs : s.Outside before out false) (hd : d = chSlash ∨ d = chAsterisk) :
    ∃ s' : Strip, s.loop (chSlash :: d :: r) = s'.loop r ∧ s'.result = out ∧
      s'.insideString = false ∧ s'.pending = [chSlash, d] ∧
      s'.before = d :: chSlash :: before ∧
      s'.insideComment = if d = chSlash then .singleLine else .multiLine := by
  obtain ⟨hcomment, hstring, hpassed, houtput, -⟩ := hs
  have hquoted : s.quoted chSlash = s := by
    simp [quoted, chSlash, chQuote]
  obtain rfl | rfl := hd
  · refine ⟨_, loop_of_two (by rw [round, hquoted]; simp [hstring, hcomment]; rfl), ?_, ?_, ?_, ?_,
      ?_⟩
    all_goals simp [Strip.pass, feedContent, hstring, hpassed, houtput]
  · refine ⟨_, loop_of_two (by
      rw [round, hquoted]; simp [hstring, hcomment, chSlash, chAsterisk]; rfl), ?_, ?_, ?_, ?_, ?_⟩
    all_goals simp [Strip.pass, feedContent, hstring, hpassed, houtput, chSlash, chAsterisk]

/-- A comment that is left becomes a space, unless there is nothing of it in the line. -/
def spaceFor (pending : List UInt8) : List UInt8 := if pending = [] then [] else [chSpace]

theorem feedComment_eq (s : Strip) :
    s.feedComment = { s with result := s.result ++ spaceFor s.pending, pending := [] } := by
  rw [feedComment, spaceFor]
  split_ifs
  · rw [List.append_nil]
  · rfl

theorem kept_pass (s : Strip) (c : UInt8) : ∃ t, (s.pass c).kept = s.kept ++ t := by
  by_cases hs : s.insideComment = .none
  · exact ⟨[c], by simp [kept, Strip.pass, hs]⟩
  · exact ⟨[], by simp [kept, Strip.pass, hs]⟩

/-- Whatever comes, the stripper keeps what it has. -/
theorem kept_round (s : Strip) (c d : UInt8) : ∃ t, (s.round c d).1.kept = s.kept ++ t := by
  have hquoted : (s.quoted c).kept = s.kept := rfl
  rw [round, ← hquoted]
  generalize s.quoted c = s
  dsimp only
  split_ifs with h1 h2 h3 h4 h5 h6 h7 h8
  · exact kept_pass s c
  · exact ⟨[], by simp [kept, Strip.pass, feedContent, h2.1]⟩
  · exact ⟨spaceFor s.pending ++ [c, d], by simp [kept, Strip.pass, h3.1, feedComment_eq]⟩
  · exact ⟨spaceFor s.pending ++ [c], by simp [kept, Strip.pass, h4.1, feedComment_eq]⟩
  · exact ⟨[], by simp [kept, Strip.pass, feedContent, h5.1]⟩
  · exact ⟨spaceFor (s.pending ++ [c] ++ [d]), by
      simp [kept, Strip.pass, h6.1, feedComment_eq]⟩
  · exact ⟨spaceFor s.pending ++ [c, d], by
      simp [kept, Strip.pass, feedContent, h7.1, feedComment_eq]⟩
  · exact ⟨spaceFor s.pending ++ [c], by
      simp [kept, Strip.pass, feedContent, h8.1, feedComment_eq]⟩
  · exact kept_pass s c

theorem kept_loop (s : Strip) (text : List UInt8) : ∃ t, (s.loop text).kept = s.kept ++ t := by
  fun_induction loop s text with
  | case1 s => exact ⟨[], (List.append_nil _).symm⟩
  | case2 s c => exact kept_round s c 0
  | case3 s c d r htwo ih =>
    obtain ⟨t, ht⟩ := kept_round s c d
    obtain ⟨t', ht'⟩ := ih
    exact ⟨t ++ t', by rw [ht', ht, List.append_assoc]⟩
  | case4 s c d r hone ih =>
    obtain ⟨t, ht⟩ := kept_round s c d
    obtain ⟨t', ht'⟩ := ih
    exact ⟨t ++ t', by rw [ht', ht, List.append_assoc]⟩

/-! ## Inside a comment -/

/-- The stripper inside a comment. -/
structure Inside (s : Strip) (comment : InsideComment) (before out pending : List UInt8) : Prop where
  comment : s.insideComment = comment
  string : s.insideString = false
  passed : s.before = before
  output : s.result = out
  pending : s.pending = pending

theorem Inside.quoted {comment : InsideComment} {pending : List UInt8}
    (hs : s.Inside comment before out pending) (hcomment : comment ≠ .none) (c : UInt8) :
    s.quoted c = s := by
  have hno : ¬(s.insideComment = .none ∧ c = chQuote ∧ s.escaped = false) := fun h =>
    hcomment (hs.comment.symm.trans h.1)
  rw [Strip.quoted, if_neg hno]

theorem Inside.pass {comment : InsideComment} {pending : List UInt8}
    (hs : s.Inside comment before out pending) (c : UInt8) :
    (s.pass c).Inside comment (c :: before) out (pending ++ [c]) :=
  ⟨hs.comment, hs.string, by rw [Strip.pass, hs.passed], hs.output, by rw [Strip.pass, hs.pending]⟩

/-- A character that does not end the line. -/
theorem Inside.round_line {pending : List UInt8} (hs : s.Inside .singleLine before out pending)
    (hc : c ≠ chNewline) (hend : ¬(c = chReturn ∧ d = chNewline)) :
    s.round c d = (s.pass c, false) := by
  have hcomment := hs.comment
  rw [round, hs.quoted (by decide)]
  simp [hs.string, hcomment, hc, hend]

theorem head_append_ne {text r : List UInt8} {x : UInt8} (htext : x ∉ text)
    (hrest : text = [] → r.headD 0 ≠ x) : (text ++ r).headD 0 ≠ x := by
  cases text with
  | nil => exact hrest rfl
  | cons c text =>
    rintro rfl
    exact htext List.mem_cons_self

/-- The characters of a line comment up to its end. -/
theorem Inside.line {pending text : List UInt8} (hs : s.Inside .singleLine before out pending)
    (hpending : pending ≠ []) (htext : chNewline ∉ text) (crlf : Bool)
    (hend : crlf = false → text.getLast? ≠ some chReturn) :
    ∃ s' : Strip, s.loop (text ++ (lineEnd crlf ++ r)) = s'.loop r ∧
      s'.Outside ((lineEnd crlf).reverse ++ (text.reverse ++ before))
        (out ++ (chSpace :: lineEnd crlf)) false := by
  induction text generalizing s before pending with
  | nil =>
    have hspace : spaceFor s.pending = [chSpace] := by rw [spaceFor, hs.pending, if_neg hpending]
    cases crlf with
    | true =>
      refine ⟨_, loop_of_two (by
        rw [round, hs.quoted (by decide)]; simp [hs.string, hs.comment]; rfl), ?_⟩
      rw [feedComment_eq, hspace]
      exact ⟨rfl, hs.string, by simp [Strip.pass, hs.passed, lineEnd],
        by simp [Strip.pass, hs.output, lineEnd], by simp [Strip.pass]⟩
    | false =>
      have hround : s.round chNewline (r.headD 0) =
          ({ s.feedComment with insideComment := .none }.pass chNewline, false) := by
        have hne : chNewline ≠ chReturn := by decide
        rw [round, hs.quoted (by decide)]
        simp [hs.string, hs.comment, hne]
      refine ⟨_, loop_of_one hround, ?_⟩
      rw [feedComment_eq, hspace]
      exact ⟨rfl, hs.string, by simp [Strip.pass, hs.passed, lineEnd],
        by simp [Strip.pass, hs.output, lineEnd], by simp [Strip.pass]⟩
  | cons c text ih =>
    rw [List.mem_cons, not_or] at htext
    have hnext : ¬(c = chReturn ∧ (text ++ (lineEnd crlf ++ r)).headD 0 = chNewline) := by
      rintro ⟨hc, hhead⟩
      refine head_append_ne htext.2 (fun hempty => ?_) hhead
      cases crlf with
      | true => simp [lineEnd, chReturn, chNewline]
      | false => exact absurd (hempty ▸ hend rfl) (by simp [hc])
    have hround := hs.round_line (Ne.symm htext.1) hnext
    obtain ⟨s', hloop, hs'⟩ := ih (hs.pass c) (by simp) htext.2 fun hcrlf hlast => hend hcrlf (by
      rw [List.getLast?_cons, hlast]
      rfl)
    refine ⟨s', ?_, ?_⟩
    · rw [List.cons_append, loop_of_one hround, hloop]
    · rwa [List.reverse_cons, List.append_assoc]

/-- A line comment that does not end. -/
theorem Inside.last {pending text : List UInt8} (hs : s.Inside .singleLine before out pending)
    (htext : chNewline ∉ text) :
    (s.loop text).kept = out ∧ (s.loop text).insideComment ≠ .multiLine := by
  induction text generalizing s before pending with
  | nil =>
    rw [loop, kept, hs.comment, if_neg (by decide), hs.output]
    exact ⟨rfl, by decide⟩
  | cons c text ih =>
    rw [List.mem_cons, not_or] at htext
    have hhead : ¬(c = chReturn ∧ text.headD 0 = chNewline) := by
      rintro ⟨-, hhead⟩
      have hne := head_append_ne htext.2 (fun _ => by simp [chNewline] : text = [] →
        ([] : List UInt8).headD 0 ≠ chNewline)
      rw [List.append_nil] at hne
      exact hne hhead
    rw [loop_of_one (hs.round_line (Ne.symm htext.1) hhead)]
    exact ih (hs.pass c) htext.2

theorem Inside.round_newline {pending : List UInt8} (hs : s.Inside .multiLine before out pending)
    (d : UInt8) : s.round chNewline d = ((s.feedComment.pass chNewline).feedContent, false) := by
  have hreturn : chNewline ≠ chReturn := by decide
  have hasterisk : chNewline ≠ chAsterisk := by decide
  rw [round, hs.quoted (by decide)]
  simp [hs.string, hs.comment, hreturn, hasterisk]

theorem Inside.round_crlf {pending : List UInt8} (hs : s.Inside .multiLine before out pending) :
    s.round chReturn chNewline =
      (((s.feedComment.pass chReturn).pass chNewline).feedContent, true) := by
  have hasterisk : chReturn ≠ chAsterisk := by decide
  rw [round, hs.quoted (by decide)]
  simp [hs.string, hs.comment, hasterisk]

/-- A character that neither ends the comment nor a line of it. -/
theorem Inside.round_block {pending : List UInt8} (hs : s.Inside .multiLine before out pending)
    (hclose : ¬(c = chAsterisk ∧ d = chSlash)) (hc : c ≠ chNewline)
    (hcrlf : ¬(c = chReturn ∧ d = chNewline)) : s.round c d = (s.pass c, false) := by
  rw [round, hs.quoted (by decide)]
  simp [hs.string, hs.comment, hclose, hc, hcrlf]

theorem Inside.close {pending : List UInt8} (hs : s.Inside .multiLine before out pending) :
    ∃ s' : Strip, s.loop (chAsterisk :: chSlash :: r) = s'.loop r ∧
      s'.Outside (chSlash :: chAsterisk :: before) (out ++ [chSpace]) false := by
  refine ⟨_, loop_of_two (by
    rw [round, hs.quoted (by decide)]; simp [hs.string, hs.comment]; rfl), ?_⟩
  rw [feedComment_eq]
  exact ⟨rfl, hs.string, by simp [Strip.pass, hs.passed],
    by simp [Strip.pass, hs.output, spaceFor], by simp [Strip.pass, spaceFor]⟩

theorem space_of_pending (pending : List UInt8) :
    (if decide (pending ≠ []) = true then [chSpace] else []) = spaceFor pending := by
  rw [spaceFor]
  by_cases hpending : pending = [] <;> simp [hpending]

/-- The characters of a block comment, and its end. -/
theorem Inside.block {pending text : List UInt8} (hs : s.Inside .multiLine before out pending)
    (htext : closes (text ++ [chAsterisk]) = false) :
    ∃ s' : Strip, s.loop (text ++ (chAsterisk :: chSlash :: r)) = s'.loop r ∧
      s'.Outside (chSlash :: chAsterisk :: (text.reverse ++ before))
        (out ++ blankLines (pending ≠ []) text) false := by
  obtain ⟨n, hn⟩ : ∃ n, text.length ≤ n := ⟨_, le_rfl⟩
  -- two characters are taken at once at a line break
  induction n generalizing s before out pending text with
  | zero =>
    obtain rfl := List.length_eq_zero_iff.mp (Nat.le_zero.mp hn)
    exact hs.close
  | succ n ih =>
    cases text with
    | nil => exact hs.close
    | cons c text =>
    rw [List.length_cons] at hn
    have hcloses : ¬(c = chAsterisk ∧ (text ++ (chAsterisk :: chSlash :: r)).headD 0 = chSlash) ∧
        closes (text ++ [chAsterisk]) = false := by
      cases text with
      | nil => simp [closes, chAsterisk, chSlash]
      | cons d text => simpa [closes] using htext
    by_cases hc : c = chNewline
    · subst hc
      have hfed : (s.feedComment.pass chNewline).feedContent.Inside .multiLine
          (chNewline :: before) (out ++ spaceFor pending ++ [chNewline]) [] := by
        rw [feedComment_eq]
        exact ⟨hs.comment, hs.string, by simp [feedContent, Strip.pass, hs.passed],
          by simp [feedContent, Strip.pass, hs.output, hs.pending], rfl⟩
      obtain ⟨s', hloop, hs'⟩ := ih hfed hcloses.2 (by omega)
      refine ⟨s', ?_, ?_⟩
      · rw [List.cons_append, loop_of_one (hs.round_newline _), hloop]
      · rw [blankLines, if_pos (.inl rfl), space_of_pending]
        simpa using hs'
    by_cases hcrlf : c = chReturn ∧ text.head? = some chNewline
    · cases text with
      | nil => simp at hcrlf
      | cons d text =>
        obtain ⟨rfl, hd⟩ := hcrlf
        obtain rfl : d = chNewline := by simpa using hd
        have hfed : ((s.feedComment.pass chReturn).pass chNewline).feedContent.Inside .multiLine
            (chNewline :: chReturn :: before)
            (out ++ spaceFor pending ++ [chReturn, chNewline]) [] := by
          rw [feedComment_eq]
          exact ⟨hs.comment, hs.string, by simp [feedContent, Strip.pass, hs.passed],
            by simp [feedContent, Strip.pass, hs.output, hs.pending], rfl⟩
        have hrest : closes (text ++ [chAsterisk]) = false := by
          cases text with
          | nil => rfl
          | cons d text => simpa [closes, chNewline, chAsterisk] using hcloses.2
        rw [List.length_cons] at hn
        obtain ⟨s', hloop, hs'⟩ := ih hfed hrest (by omega)
        refine ⟨s', ?_, ?_⟩
        · rw [List.cons_append, List.cons_append, loop_of_two hs.round_crlf, hloop]
        · rw [blankLines, if_pos (.inr ⟨rfl, rfl⟩), space_of_pending, blankLines,
            if_pos (.inl rfl)]
          simpa using hs'
    · have hreturn : ¬(c = chReturn ∧
          (text ++ (chAsterisk :: chSlash :: r)).headD 0 = chNewline) := by
        rintro ⟨hreturn, hhead⟩
        cases text with
        | nil => simp [chAsterisk, chNewline] at hhead
        | cons d text => exact hcrlf ⟨hreturn, congrArg some hhead⟩
      obtain ⟨s', hloop, hs'⟩ := ih (hs.pass c) hcloses.2 (by omega)
      refine ⟨s', ?_, ?_⟩
      · rw [List.cons_append, loop_of_one (hs.round_block hcloses.1 hc hreturn), hloop]
      · rw [blankLines, if_neg (not_or.mpr ⟨hc, hcrlf⟩)]
        simpa using hs'

/-- A comment that the stripper sees leaves a space, or nothing when it does not end. -/
theorem Inside.seen {comment : InsideComment} {pending : List UInt8}
    (hs : s.Inside comment before out pending) (hcomment : comment ≠ .none) (hpending : pending ≠ [])
    (text : List UInt8) : (s.loop text).kept = out ∨
      ∃ t, (s.loop text).kept = out ++ chSpace :: t := by
  have hgrown : ∀ (s' : Strip) (text : List UInt8), (∃ t, s'.result = s.result ++ chSpace :: t) →
      ∃ t, (s'.loop text).kept = out ++ chSpace :: t := by
    rintro s' text ⟨t, ht⟩
    obtain ⟨t', ht'⟩ := kept_loop s' text
    refine ⟨t ++ (if s'.insideComment = .none then s'.pending else []) ++ t', ?_⟩
    rw [ht', kept, ht, hs.output]
    split <;> simp
  fun_induction loop s text generalizing before pending with
  | case1 s =>
    left
    rw [kept, hs.comment, if_neg hcomment, hs.output]
  | case2 s c => 
    obtain hfed | ⟨-, heq⟩ := comment_round (c := c) (d := 0) (hs.comment ▸ hcomment) hs.string
      (hs.pending ▸ hpending)
    · exact .inr (hgrown _ [] hfed)
    · rw [heq]
      left
      rw [kept, (hs.pass c).comment, if_neg hcomment, (hs.pass c).output]
  | case3 s c d r htwo ih =>
    obtain hfed | ⟨-, heq⟩ := comment_round (c := c) (d := d) (hs.comment ▸ hcomment) hs.string
      (hs.pending ▸ hpending)
    · exact .inr (hgrown _ _ hfed)
    · rw [heq] at htwo
      cases htwo
  | case4 s c d r hone ih =>
    obtain hfed | ⟨-, heq⟩ := comment_round (c := c) (d := d) (hs.comment ▸ hcomment) hs.string
      (hs.pending ▸ hpending)
    · exact .inr (hgrown _ _ hfed)
    · rw [heq] at ih ⊢
      exact ih (hs.pass c) (by simp) hgrown

end Bettergram.Base.Parse.Strip
