import Bettergram.Lang.LangFileParser
import Mathlib.Algebra.Ring.Parity
import Mathlib.Algebra.Order.Ring.Nat

/-! # Language files read back

A file is written with the quotes, backslashes and newlines of its values
escaped. The reader undoes that, but the stripper takes a quote after an escaped
backslash for the end of the string, and from there on what looks like a comment
in a value is cut out.
-/

namespace Bettergram.Lang

open Base.Parse
open Strip (plain turned)

def escapeChar (c : UInt8) : List UInt8 :=
  if c = chBackslash then [chBackslash, chBackslash]
  else if c = chQuote then [chBackslash, chQuote]
  else if c = chNewline then [chBackslash, chN]
  else [c]

def escape (value : List UInt8) : List UInt8 := value.flatMap escapeChar

theorem escape_cons (c : UInt8) (value : List UInt8) :
    escape (c :: value) = escapeChar c ++ escape value := rfl

/-- A line up to its value. -/
def lineStart (key : List UInt8) : List UInt8 :=
  chQuote :: key ++ [chQuote, chSpace, chEquals, chSpace, chQuote]

def lineEnd : List UInt8 := [chQuote, chSemicolon, chNewline]

def writeLine (pair : List UInt8 × List UInt8) : List UInt8 :=
  lineStart pair.1 ++ escape pair.2 ++ lineEnd

def writeFile (pairs : List (List UInt8 × List UInt8)) : List UInt8 := pairs.flatMap writeLine

/-- 1 for a quote right after a backslash. -/
def quotePair (prev : Bool) (c : UInt8) : ℕ := if prev ∧ c = chQuote then 1 else 0

/-- How many quotes of a value stand right after a backslash; the flag tells of the
character before the value. -/
def quotePairs : Bool → List UInt8 → ℕ
  | _, [] => 0
  | prev, c :: rest => quotePair prev c + quotePairs (c = chBackslash) rest

/-- Where something in a value looks like a comment, the quotes right after backslashes
before it are even in number. -/
def CommentsCovered (pairs : List (List UInt8 × List UInt8)) : Prop :=
  ∀ before key value after, pairs = before ++ (key, value) :: after →
    ∀ u w, value = u ++ w → startsComment w = true →
      Even ((before.map fun pair => quotePairs false pair.2).sum + quotePairs false u)

/-! ## What the stripper makes of a value -/

/-- Whether the stripper is inside a string after a character of a value. -/
def flipped (inside prev : Bool) (c : UInt8) : Bool :=
  if prev ∧ c = chQuote then !inside else inside

/-- The stripper over a value: whether it is inside a string at the end, unless it
comes upon a comment. -/
def scan : Bool → Bool → List UInt8 → Option Bool
  | inside, _, [] => some inside
  | inside, prev, c :: rest =>
    if flipped inside prev c = false ∧ startsComment (c :: rest) then none
    else scan (flipped inside prev c) (c = chBackslash) rest

/-- The last two characters before a place of an escaped value. -/
def Before (prev : Bool) (before : List UInt8) : Prop :=
  if prev then ∃ rest, before = chBackslash :: chBackslash :: rest
  else before.head? ≠ some chBackslash

theorem turned_of_ne {before : List UInt8} {inside : Bool} {c : UInt8} (h : c ≠ chQuote) :
    turned before inside c = inside := by
  simp [turned, Strip.quoted, plain, h]

/-- A quote in no escape, or after an escaped backslash. -/
theorem turned_quote {before : List UInt8} {inside prev : Bool} (h : Before prev before) :
    turned before inside chQuote = !inside := by
  cases prev with
  | false =>
    simp only [Before, Bool.false_eq_true, if_false] at h
    simp [turned, Strip.quoted, Strip.escaped, plain, h]
  | true =>
    simp only [Before, if_true] at h
    obtain ⟨rest, rfl⟩ := h
    simp [turned, Strip.quoted, Strip.escaped, plain]

/-- The quote of an escape. -/
theorem turned_escaped {before : List UInt8} {inside prev : Bool} (h : Before prev before) :
    turned (chBackslash :: before) inside chQuote = if prev then !inside else inside := by
  cases prev with
  | false =>
    simp only [Before, Bool.false_eq_true, if_false] at h
    simp [turned, Strip.quoted, Strip.escaped, plain, h]
  | true =>
    simp only [Before, if_true] at h
    obtain ⟨rest, rfl⟩ := h
    simp [turned, Strip.quoted, Strip.escaped, plain]

theorem startsComment_of_ne {c : UInt8} {rest : List UInt8} (h : c ≠ chSlash) :
    startsComment (c :: rest) = false := by
  cases rest with
  | nil => rfl
  | cons d rest => simp [startsComment, h]

/-- The beginning of an escaped value looks like a comment when the value does. -/
theorem startsComment_escape (value rest : List UInt8) :
    startsComment (escape value ++ chQuote :: rest) = startsComment value := by
  have hhead : ∀ c : UInt8, ∃ d tail, escapeChar c = d :: tail ∧
      (d = c ∧ tail = [] ∨ d ≠ chSlash ∧ d ≠ chAsterisk ∧ c ≠ chSlash ∧ c ≠ chAsterisk) := by
    intro c
    unfold escapeChar
    split_ifs with h1 h2 h3
    · exact ⟨_, _, rfl, .inr (by rw [h1]; decide)⟩
    · exact ⟨_, _, rfl, .inr (by rw [h2]; decide)⟩
    · exact ⟨_, _, rfl, .inr (by rw [h3]; decide)⟩
    · exact ⟨_, _, rfl, .inl ⟨rfl, rfl⟩⟩
  cases value with
  | nil => exact startsComment_of_ne (by decide)
  | cons c value =>
    obtain ⟨d, tail, hc, ⟨rfl, rfl⟩ | ⟨hd, -, hne, -⟩⟩ := hhead c
    · cases value with
      | nil =>
        rw [escape, List.flatMap_cons, hc, List.flatMap_nil]
        simp [startsComment, chQuote, chSlash, chAsterisk]
      | cons c' value =>
        obtain ⟨d', tail', hc', h'⟩ := hhead c'
        rw [escape, List.flatMap_cons, hc, List.flatMap_cons, hc']
        obtain ⟨rfl, rfl⟩ | ⟨h1, h2, h3, h4⟩ := h'
        · simp [startsComment]
        · simp [startsComment, h1, h2, h3, h4]
    · rw [escape, List.flatMap_cons, hc, startsComment_of_ne hne]
      exact startsComment_of_ne hd

/-- The stripper gets through one character of the value. -/
theorem loop_escapeChar {before rest : List UInt8} {inside prev : Bool} {c : UInt8}
    (hbefore : Before prev before)
    (hquiet : flipped inside prev c = true ∨ startsComment (escapeChar c ++ rest) = false) :
    (plain before inside).loop (escapeChar c ++ rest) =
        (plain ((escapeChar c).reverse ++ before) (flipped inside prev c)).loop rest ∧
      Before (c = chBackslash) ((escapeChar c).reverse ++ before) := by
  have hback : ∀ inside rest, (plain before inside).loop (chBackslash :: rest) =
      (plain (chBackslash :: before) inside).loop rest := by
    intro inside rest
    rw [Strip.plain_loop_cons (.inr (startsComment_of_ne (by decide))),
      turned_of_ne (by decide)]
  by_cases hslash : c = chBackslash
  · subst hslash
    have hstep : ∀ before, (plain before inside).loop (chBackslash :: chBackslash :: rest) =
        (plain (chBackslash :: chBackslash :: before) inside).loop rest := by
      intro before
      rw [Strip.plain_loop_cons (.inr (startsComment_of_ne (by decide))),
        turned_of_ne (by decide), Strip.plain_loop_cons (.inr (startsComment_of_ne (by decide))),
        turned_of_ne (by decide)]
    refine ⟨?_, before, rfl⟩
    rw [flipped, if_neg (fun h => absurd h.2 (by decide))]
    exact hstep before
  by_cases hquote : c = chQuote
  · subst hquote
    have hescape : escapeChar chQuote = [chBackslash, chQuote] := rfl
    rw [hescape]
    refine ⟨?_, by simp [Before, chQuote, chBackslash]⟩
    rw [List.cons_append, List.cons_append, List.nil_append, hback inside,
      Strip.plain_loop_cons (.inr (startsComment_of_ne (by decide))), turned_escaped hbefore]
    simp [flipped]
  by_cases hline : c = chNewline
  · subst hline
    have hescape : escapeChar chNewline = [chBackslash, chN] := rfl
    rw [hescape, flipped, if_neg (fun h => absurd h.2 (by decide))]
    refine ⟨?_, by simp [Before, chNewline, chBackslash, chN]⟩
    rw [List.cons_append, List.cons_append, List.nil_append, hback inside,
      Strip.plain_loop_cons (.inr (startsComment_of_ne (by decide))), turned_of_ne (by decide)]
    rfl
  · have hescape : escapeChar c = [c] := by
      rw [escapeChar, if_neg hslash, if_neg hquote, if_neg hline]
    rw [hescape] at hquiet ⊢
    rw [flipped, if_neg (fun h => hquote h.2)] at hquiet ⊢
    refine ⟨?_, by simp [Before, hslash]⟩
    rw [List.singleton_append] at hquiet ⊢
    rw [Strip.plain_loop_cons (hquiet.imp_left fun h => (turned_of_ne hquote).trans h),
      turned_of_ne hquote]
    rfl

/-- Without a comment the stripper passes the whole value. -/
theorem loop_escape {before value : List UInt8} {inside prev inside' : Bool} (rest : List UInt8)
    (hbefore : Before prev before) (hscan : scan inside prev value = some inside') :
    ∃ prev', (plain before inside).loop (escape value ++ chQuote :: rest) =
        (plain ((escape value).reverse ++ before) inside').loop (chQuote :: rest) ∧
      Before prev' ((escape value).reverse ++ before) := by
  induction value generalizing before inside prev with
  | nil =>
    rw [scan, Option.some.injEq] at hscan
    subst hscan
    exact ⟨prev, rfl, hbefore⟩
  | cons c value ih =>
    rw [scan] at hscan
    split_ifs at hscan with h
    have hquiet : flipped inside prev c = true ∨
        startsComment (escapeChar c ++ (escape value ++ chQuote :: rest)) = false := by
      have hstarts := startsComment_escape (c :: value) rest
      rw [escape_cons, List.append_assoc] at hstarts
      rw [hstarts]
      simpa [or_iff_not_imp_left] using h
    obtain ⟨hloop, hbefore'⟩ := loop_escapeChar hbefore hquiet
    obtain ⟨prev', hrest, hafter⟩ := ih hbefore' hscan
    refine ⟨prev', ?_, ?_⟩
    · rw [escape_cons, List.append_assoc, hloop, hrest, List.reverse_append,
        List.append_assoc]
    · rw [escape_cons, List.reverse_append, List.append_assoc]
      exact hafter

/-- A comment in a value ends what the stripper keeps of its line. -/
theorem loop_comment {before value : List UInt8} {inside prev : Bool} (content rest : List UInt8)
    (hbefore : Before prev before) (hscan : scan inside prev value = none)
    (hline : chNewline ∈ rest) :
    ∃ u w t, value = u ++ w ∧ startsComment w = true ∧
      ((plain before inside).loop (escape value ++ chQuote :: rest)).finish content =
        before.reverse ++ escape u ++ chSpace :: t := by
  induction value generalizing before inside prev with
  | nil => cases hscan
  | cons c value ih =>
    rw [scan] at hscan
    have hstarts := startsComment_escape (c :: value) rest
    rw [escape_cons, List.append_assoc] at hstarts
    split_ifs at hscan with h
    · -- the comment begins here, where no quote can stand
      have hslash : c = chSlash := by
        by_contra hne
        rw [startsComment_of_ne hne] at h
        cases h.2
      have hinside : inside = false := by
        rw [hslash, flipped, if_neg (fun h => absurd h.2 (by decide))] at h
        exact h.1
      subst hinside
      obtain ⟨t, ht⟩ := Strip.plain_loop_comment before content
        (hstarts.trans h.2) (by simp [hline])
      refine ⟨[], c :: value, t, rfl, h.2, ?_⟩
      rw [escape_cons, List.append_assoc, ht]
      simp [escape]
    · have hquiet : flipped inside prev c = true ∨
          startsComment (escapeChar c ++ (escape value ++ chQuote :: rest)) = false := by
        rw [hstarts]
        simpa [or_iff_not_imp_left] using h
      obtain ⟨hloop, hbefore'⟩ := loop_escapeChar hbefore hquiet
      obtain ⟨u, w, t, rfl, hw, ht⟩ := ih hbefore' hscan
      refine ⟨c :: u, w, t, rfl, hw, ?_⟩
      rw [escape_cons, List.append_assoc, hloop, ht, escape_cons]
      simp


/-! ## What the stripper makes of a file -/

theorem isKeyChar_ne {c : UInt8} (h : isKeyChar c = true) :
    c ≠ chQuote ∧ c ≠ chSlash ∧ c ≠ chBackslash ∧ isWhitespace c = false := by
  refine ⟨?_, ?_, ?_, ?_⟩
  · rintro rfl
    exact absurd h (by decide)
  · rintro rfl
    exact absurd h (by decide)
  · rintro rfl
    exact absurd h (by decide)
  · by_contra hspace
    simp only [isWhitespace, Bool.not_eq_false, Bool.or_eq_true, decide_eq_true_eq] at hspace
    obtain ((rfl | rfl) | rfl) | rfl := hspace <;> exact absurd h (by decide)

theorem loop_key {before key rest : List UInt8} {inside : Bool}
    (hkey : ∀ c ∈ key, isKeyChar c = true) :
    (plain before inside).loop (key ++ rest) =
      (plain (key.reverse ++ before) inside).loop rest := by
  induction key generalizing before with
  | nil => rfl
  | cons c key ih =>
    obtain ⟨hquote, hslash, -, -⟩ := isKeyChar_ne (hkey c List.mem_cons_self)
    rw [List.cons_append, Strip.plain_loop_cons (.inr (startsComment_of_ne hslash)),
      turned_of_ne hquote, ih fun c hc => hkey c (List.mem_cons_of_mem _ hc)]
    simp

theorem loop_lineStart {before key rest : List UInt8} {inside : Bool}
    (hkey : ∀ c ∈ key, isKeyChar c = true) (hbefore : Before false before) :
    (plain before inside).loop (lineStart key ++ rest) =
      (plain ((lineStart key).reverse ++ before) (!inside)).loop rest := by
  have hname : Before false (key.reverse ++ chQuote :: before) := by
    have hne : ∀ c ∈ (key.reverse ++ chQuote :: before).head?, c ≠ chBackslash := by
      intro c hc
      cases hrev : key.reverse with
      | nil =>
        rw [hrev, List.nil_append, List.head?_cons, Option.mem_some] at hc
        subst hc
        decide
      | cons d tail =>
        rw [hrev, List.cons_append, List.head?_cons, Option.mem_some] at hc
        subst hc
        exact (isKeyChar_ne (hkey d (List.mem_reverse.mp (by rw [hrev]; simp)))).2.2.1
    simp only [Before, Bool.false_eq_true, if_false]
    exact fun h => hne _ h rfl
  have hspace : ∀ rest, Before false (chSpace :: rest) := by
    intro rest
    simp [Before, chSpace, chBackslash]
  rw [lineStart, List.append_assoc, List.cons_append,
    Strip.plain_loop_cons (.inr (startsComment_of_ne (by decide))), turned_quote hbefore,
    loop_key hkey]
  simp only [List.cons_append, List.nil_append]
  rw [Strip.plain_loop_cons (.inr (startsComment_of_ne (by decide))), turned_quote hname,
    Strip.plain_loop_cons (.inr (startsComment_of_ne (by decide))), turned_of_ne (by decide),
    Strip.plain_loop_cons (.inr (startsComment_of_ne (by decide))), turned_of_ne (by decide),
    Strip.plain_loop_cons (.inr (startsComment_of_ne (by decide))), turned_of_ne (by decide),
    Strip.plain_loop_cons (.inr (startsComment_of_ne (by decide))), turned_quote (hspace _)]
  simp

theorem loop_lineEnd {before rest : List UInt8} {inside prev : Bool} (hbefore : Before prev before) :
    (plain before inside).loop (lineEnd ++ rest) =
      (plain (lineEnd.reverse ++ before) (!inside)).loop rest := by
  simp only [lineEnd, List.cons_append, List.nil_append]
  rw [Strip.plain_loop_cons (.inr (startsComment_of_ne (by decide))), turned_quote hbefore,
    Strip.plain_loop_cons (.inr (startsComment_of_ne (by decide))), turned_of_ne (by decide),
    Strip.plain_loop_cons (.inr (startsComment_of_ne (by decide))), turned_of_ne (by decide)]
  rfl

theorem before_lineStart (key before : List UInt8) :
    Before false ((lineStart key).reverse ++ before) := by
  simp [Before, lineStart, chQuote, chBackslash]

theorem before_lineEnd (before : List UInt8) : Before false (lineEnd.reverse ++ before) := by
  simp [Before, lineEnd, chNewline, chBackslash]

/-- The stripper over a file, from value to value. -/
def scanFile : Bool → List (List UInt8 × List UInt8) → Bool
  | _, [] => true
  | inside, pair :: rest =>
    match scan inside false pair.2 with
    | none => false
    | some inside => scanFile inside rest

theorem loop_file (before : List UInt8) {inside : Bool} {pairs : List (List UInt8 × List UInt8)}
    (hkeys : ∀ pair ∈ pairs, ∀ c ∈ pair.1, isKeyChar c = true) (hbefore : Before false before)
    (hscan : scanFile inside pairs = true) :
    ∃ inside', (plain before (!inside)).loop (writeFile pairs) =
      plain ((writeFile pairs).reverse ++ before) inside' := by
  induction pairs generalizing before inside with
  | nil => exact ⟨!inside, rfl⟩
  | cons pair pairs ih =>
    rw [scanFile] at hscan
    cases hvalue : scan inside false pair.2 with
    | none =>
      rw [hvalue] at hscan
      cases hscan
    | some inside' =>
      rw [hvalue] at hscan
      obtain ⟨prev, hloop, hafter⟩ := loop_escape
        ([chSemicolon, chNewline] ++ writeFile pairs) (before_lineStart pair.1 before) hvalue
      obtain ⟨last, hrest⟩ := ih _ (fun p hp => hkeys p (List.mem_cons_of_mem _ hp))
        (before_lineEnd ((escape pair.2).reverse ++ ((lineStart pair.1).reverse ++ before))) hscan
      refine ⟨last, ?_⟩
      have hfile : writeFile (pair :: pairs) = lineStart pair.1 ++
          (escape pair.2 ++ (lineEnd ++ writeFile pairs)) := by
        simp [writeFile, writeLine]
      rw [hfile, loop_lineStart (hkeys pair List.mem_cons_self) hbefore, Bool.not_not]
      have hend : escape pair.2 ++ (lineEnd ++ writeFile pairs) =
          escape pair.2 ++ chQuote :: ([chSemicolon, chNewline] ++ writeFile pairs) := rfl
      rw [hend, hloop]
      have hend' : chQuote :: ([chSemicolon, chNewline] ++ writeFile pairs) =
          lineEnd ++ writeFile pairs := rfl
      rw [hend', loop_lineEnd hafter, hrest]
      simp

theorem loop_file_comment (before content : List UInt8) {inside : Bool}
    {pairs : List (List UInt8 × List UInt8)}
    (hkeys : ∀ pair ∈ pairs, ∀ c ∈ pair.1, isKeyChar c = true) (hbefore : Before false before)
    (hscan : scanFile inside pairs = false) :
    ∃ done key value after u w t, pairs = done ++ (key, value) :: after ∧ value = u ++ w ∧
      startsComment w = true ∧
      ((plain before (!inside)).loop (writeFile pairs)).finish content =
        before.reverse ++ writeFile done ++ (lineStart key ++ (escape u ++ chSpace :: t)) := by
  induction pairs generalizing before inside with
  | nil => cases hscan
  | cons pair pairs ih =>
    have hfile : writeFile (pair :: pairs) = lineStart pair.1 ++
        (escape pair.2 ++ chQuote :: ([chSemicolon, chNewline] ++ writeFile pairs)) := by
      simp [writeFile, writeLine, lineEnd]
    rw [scanFile] at hscan
    cases hvalue : scan inside false pair.2 with
    | none =>
      obtain ⟨u, w, t, heq, hw, ht⟩ := loop_comment content
        ([chSemicolon, chNewline] ++ writeFile pairs) (before_lineStart pair.1 before) hvalue
        (by simp)
      refine ⟨[], pair.1, pair.2, pairs, u, w, t, rfl, heq, hw, ?_⟩
      rw [hfile, loop_lineStart (hkeys pair List.mem_cons_self) hbefore, Bool.not_not, ht]
      simp [writeFile]
    | some inside' =>
      rw [hvalue] at hscan
      obtain ⟨prev, hloop, hafter⟩ := loop_escape
        ([chSemicolon, chNewline] ++ writeFile pairs) (before_lineStart pair.1 before) hvalue
      obtain ⟨done, key, value, after, u, w, t, heq, hsplit, hw, ht⟩ :=
        ih _ (fun p hp => hkeys p (List.mem_cons_of_mem _ hp))
          (before_lineEnd ((escape pair.2).reverse ++ ((lineStart pair.1).reverse ++ before))) hscan
      refine ⟨pair :: done, key, value, after, u, w, t, by rw [heq, List.cons_append], hsplit, hw, ?_⟩
      have hend : chQuote :: ([chSemicolon, chNewline] ++ writeFile pairs) =
          lineEnd ++ writeFile pairs := rfl
      rw [hfile, loop_lineStart (hkeys pair List.mem_cons_self) hbefore, Bool.not_not, hloop, hend,
        loop_lineEnd hafter, ht]
      simp [writeFile, writeLine]

/-! ## The condition -/

theorem flipped_even (n : ℕ) (prev : Bool) (c : UInt8) :
    flipped (decide (Even n)) prev c = decide (Even (n + quotePair prev c)) := by
  rw [flipped, quotePair]
  split_ifs
  · rw [← decide_not, decide_eq_decide, Nat.even_add_one]
  · rw [Nat.add_zero]

theorem scan_some {n : ℕ} {prev inside : Bool} {value : List UInt8}
    (h : scan (decide (Even n)) prev value = some inside) :
    inside = decide (Even (n + quotePairs prev value)) := by
  induction value generalizing n prev with
  | nil => exact (Option.some.inj h).symm
  | cons c value ih =>
    rw [scan, flipped_even] at h
    split_ifs at h with hstart
    rw [ih h, quotePairs, Nat.add_assoc]

theorem scan_none_iff (n : ℕ) (prev : Bool) (value : List UInt8) :
    scan (decide (Even n)) prev value = none ↔
      ∃ u w, value = u ++ w ∧ startsComment w = true ∧ ¬ Even (n + quotePairs prev u) := by
  induction value generalizing n prev with
  | nil =>
    refine iff_of_false (by simp [scan]) ?_
    rintro ⟨u, w, h, hw, -⟩
    rw [(List.append_eq_nil_iff.mp h.symm).2] at hw
    cases hw
  | cons c value ih =>
    rw [scan, flipped_even]
    constructor
    · intro h
      split_ifs at h with hstart
      · obtain ⟨hinside, hstarts⟩ := hstart
        have hslash : c = chSlash := by
          by_contra hne
          rw [startsComment_of_ne hne] at hstarts
          cases hstarts
        subst hslash
        rw [quotePair, if_neg (fun h => absurd h.2 (by decide))] at hinside
        exact ⟨[], chSlash :: value, rfl, hstarts, by simpa [quotePairs] using hinside⟩
      · obtain ⟨u, w, rfl, hw, hodd⟩ := (ih _ _).mp h
        exact ⟨c :: u, w, rfl, hw, by rwa [quotePairs, ← Nat.add_assoc]⟩
    · rintro ⟨u, w, heq, hw, hodd⟩
      split_ifs with hstart
      · rfl
      rw [ih]
      cases u with
      | nil =>
        rw [List.nil_append] at heq
        rw [heq] at hstart
        refine absurd ⟨?_, hw⟩ hstart
        have hslash : c = chSlash := by
          by_contra hne
          rw [← heq, startsComment_of_ne hne] at hw
          cases hw
        subst hslash
        rw [quotePair, if_neg (fun h => absurd h.2 (by decide))]
        simpa [quotePairs] using hodd
      | cons d u =>
        rw [List.cons_append, List.cons.injEq] at heq
        obtain ⟨rfl, rfl⟩ := heq
        exact ⟨u, w, rfl, hw, by rwa [quotePairs, ← Nat.add_assoc] at hodd⟩

theorem scanFile_iff (n : ℕ) (pairs : List (List UInt8 × List UInt8)) :
    scanFile (decide (Even n)) pairs = true ↔
      ∀ before key value after, pairs = before ++ (key, value) :: after →
        ∀ u w, value = u ++ w → startsComment w = true →
          Even (n + (before.map fun pair => quotePairs false pair.2).sum + quotePairs false u) := by
  induction pairs generalizing n with
  | nil => simp [scanFile]
  | cons pair pairs ih =>
    rw [scanFile]
    cases hscan : scan (decide (Even n)) false pair.2 with
    | none =>
      refine iff_of_false (by simp) ?_
      obtain ⟨u, w, heq, hw, hodd⟩ := (scan_none_iff n false pair.2).mp hscan
      intro h
      exact hodd (by simpa using h [] pair.1 pair.2 pairs rfl u w heq hw)
    | some inside =>
      rw [scan_some hscan]
      dsimp only
      rw [ih]
      constructor
      · intro h before key value after heq u w hvalue hw
        cases before with
        | nil =>
          rw [List.nil_append, List.cons.injEq] at heq
          by_contra hodd
          have hnone : scan (decide (Even n)) false pair.2 = none :=
            (scan_none_iff n false pair.2).mpr
              ⟨u, w, by rw [heq.1]; exact hvalue, hw, by simpa using hodd⟩
          rw [hscan] at hnone
          cases hnone
        | cons first before =>
          rw [List.cons_append, List.cons.injEq] at heq
          have := h before key value after heq.2 u w hvalue hw
          rw [List.map_cons, List.sum_cons, ← heq.1]
          rwa [Nat.add_assoc n] at this
      · intro h before key value after heq u w hvalue hw
        have := h (pair :: before) key value after (by rw [heq, List.cons_append]) u w hvalue hw
        rwa [List.map_cons, List.sum_cons, ← Nat.add_assoc] at this

end Bettergram.Lang
