import Bettergram.Lang.LangFileWritten

/-! # The round trip of a language file

The reader undoes the escapes. So a file reads back as it was written when the
stripper leaves it as it is, and otherwise a space stands in a value where the
comment began.
-/

namespace Bettergram.Lang

open Base.Parse
open Strip (plain)

/-! ## Values -/

theorem readValue_quote (key value pending rest : List UInt8) :
    readValue key false value pending (chQuote :: rest) = .ok (value ++ pending, rest) := by
  cases rest <;> simp [readValue]

theorem readValue_escape (key value pending u : List UInt8) (c : UInt8) (rest : List UInt8) :
    ∃ value' pending', readValue key false value pending (escape u ++ c :: rest) =
        readValue key false value' pending' (c :: rest) ∧
      value' ++ pending' = value ++ pending ++ u := by
  induction u generalizing value pending with
  | nil => exact ⟨value, pending, rfl, (List.append_nil _).symm⟩
  | cons d u ih =>
    obtain ⟨e, tail, htail⟩ : ∃ e tail, escape u ++ c :: rest = e :: tail := by
      cases h : escape u ++ c :: rest with
      | nil => simp at h
      | cons e tail => exact ⟨e, tail, rfl⟩
    rw [escape_cons, List.append_assoc]
    by_cases hslash : d = chBackslash
    · subst hslash
      have hread : readValue key false value pending
          (escapeChar chBackslash ++ (escape u ++ c :: rest)) =
          readValue key false (value ++ pending) [chBackslash] (escape u ++ c :: rest) := by
        rw [show escapeChar chBackslash = [chBackslash, chBackslash] from rfl, List.cons_append,
          List.cons_append, List.nil_append, readValue, if_neg (by decide), if_neg (by decide),
          if_pos rfl, if_pos (by decide), if_neg (by decide)]
      obtain ⟨value', pending', hrest, hall⟩ := ih (value ++ pending) [chBackslash]
      exact ⟨value', pending', hread.trans hrest, by rw [hall]; simp⟩
    by_cases hquote : d = chQuote
    · subst hquote
      have hread : readValue key false value pending
          (escapeChar chQuote ++ (escape u ++ c :: rest)) =
          readValue key false (value ++ pending) [chQuote] (escape u ++ c :: rest) := by
        rw [show escapeChar chQuote = [chBackslash, chQuote] from rfl, List.cons_append,
          List.cons_append, List.nil_append, readValue, if_neg (by decide), if_neg (by decide),
          if_pos rfl, if_pos (by decide), if_neg (by decide)]
      obtain ⟨value', pending', hrest, hall⟩ := ih (value ++ pending) [chQuote]
      exact ⟨value', pending', hread.trans hrest, by rw [hall]; simp⟩
    by_cases hline : d = chNewline
    · subst hline
      have hread : readValue key false value pending
          (escapeChar chNewline ++ (escape u ++ c :: rest)) =
          readValue key false (value ++ pending ++ [chNewline]) [] (escape u ++ c :: rest) := by
        rw [show escapeChar chNewline = [chBackslash, chN] from rfl, List.cons_append,
          List.cons_append, List.nil_append, readValue, if_neg (by decide), if_neg (by decide),
          if_pos rfl, if_neg (by decide), if_pos rfl, if_neg (by decide)]
      obtain ⟨value', pending', hrest, hall⟩ := ih (value ++ pending ++ [chNewline]) []
      exact ⟨value', pending', hread.trans hrest, by rw [hall]; simp⟩
    · have hescape : escapeChar d = [d] := by
        rw [escapeChar, if_neg hslash, if_neg hquote, if_neg hline]
      have hread : readValue key false value pending (escapeChar d ++ (escape u ++ c :: rest)) =
          readValue key false value (pending ++ [d]) (escape u ++ c :: rest) := by
        rw [hescape, List.singleton_append, htail, readValue, if_neg hquote, if_neg hline,
          if_neg hslash]
      obtain ⟨value', pending', hrest, hall⟩ := ih value (pending ++ [d])
      exact ⟨value', pending', hread.trans hrest, by rw [hall]; simp⟩

/-- What was taken for the value stays its beginning. -/
theorem readValue_grows {key value pending text read rest : List UInt8}
    (h : readValue key false value pending text = .ok (read, rest)) :
    ∃ t, read = value ++ pending ++ t := by
  fun_induction readValue key false value pending text with
  | case1 => cases h
  | case2 value pending =>
    simp only [Except.ok.injEq, Prod.mk.injEq] at h
    exact ⟨[], by rw [← h.1]; simp⟩
  | case3 => cases h
  | case4 => cases h
  | case5 value pending d rest' =>
    simp only [Except.ok.injEq, Prod.mk.injEq] at h
    exact ⟨[], by rw [← h.1]; simp⟩
  | case6 => cases h
  | case7 value pending d rest' hquote hline hd ih =>
    obtain ⟨t, ht⟩ := ih h
    exact ⟨d :: t, by rw [ht]; simp⟩
  | case8 value pending rest' hquote hline hd ih =>
    obtain ⟨t, ht⟩ := ih h
    exact ⟨chNewline :: t, by rw [ht]; simp⟩
  | case9 value pending d rest' hquote hline hd hn ih =>
    obtain ⟨t, ht⟩ := ih h
    exact ⟨chBackslash :: t, by rw [ht]; simp⟩
  | case10 value pending c d rest' hquote hline hslash ih =>
    obtain ⟨t, ht⟩ := ih h
    exact ⟨c :: t, by rw [ht]; simp⟩


/-! ## Lines -/

/-- Nothing, or something the reader does not skip. -/
def Unskipped (text : List UInt8) : Prop := ∀ c ∈ text.head?, isWhitespace c = false

theorem skipWhitespaces_eq {text : List UInt8} (h : Unskipped text) :
    skipWhitespaces text = text := by
  cases text with
  | nil => rfl
  | cons c text => exact List.dropWhile_cons_of_neg (by simp [h c rfl])

theorem skipWhitespaces_cons {c : UInt8} {text : List UInt8} (h : isWhitespace c = true) :
    skipWhitespaces (c :: text) = skipWhitespaces text := List.dropWhile_cons_of_pos h

theorem writeFile_unskipped (pairs : List (List UInt8 × List UInt8)) :
    Unskipped (writeFile pairs) := by
  cases pairs with
  | nil => simp [Unskipped, writeFile]
  | cons pair pairs =>
    intro c hc
    simp only [writeFile, writeLine, lineStart, List.flatMap_cons, List.cons_append,
      List.head?_cons, Option.mem_some] at hc
    subst hc
    decide

/-- Up to the value the reader goes as the writer did. -/
theorem readKeyValue_lineStart {key rest : List UInt8} (hkey : ∀ c ∈ key, isKeyChar c = true) :
    readKeyValue (fun _ => false) (lineStart key ++ rest) =
      ((readValue key false [] [] rest).bind (readSemicolon key)).map
        fun read => some ((key, read.1), read.2) := by
  have hline : lineStart key ++ rest =
      chQuote :: (key ++ chQuote :: chSpace :: chEquals :: chSpace :: chQuote :: rest) := by
    simp [lineStart]
  have hquote : Unskipped (lineStart key ++ rest) := by
    rw [hline]
    intro c hc
    rw [List.head?_cons, Option.mem_some] at hc
    subst hc
    decide
  have htake : (key ++ chQuote :: chSpace :: chEquals :: chSpace :: chQuote :: rest).takeWhile
      isKeyChar = key := by
    rw [List.takeWhile_append_of_pos hkey, List.takeWhile_cons_of_neg (by decide), List.append_nil]
  have hdrop : (key ++ chQuote :: chSpace :: chEquals :: chSpace :: chQuote :: rest).dropWhile
      isKeyChar = chQuote :: chSpace :: chEquals :: chSpace :: chQuote :: rest := by
    rw [List.dropWhile_append_of_pos hkey, List.dropWhile_cons_of_neg (by decide)]
  have hequals : skipWhitespaces (chSpace :: chEquals :: chSpace :: chQuote :: rest) =
      chEquals :: chSpace :: chQuote :: rest := by
    rw [skipWhitespaces_cons (by decide)]
    exact List.dropWhile_cons_of_neg (by decide)
  have hvalue : skipWhitespaces (chSpace :: chQuote :: rest) = chQuote :: rest := by
    rw [skipWhitespaces_cons (by decide)]
    exact List.dropWhile_cons_of_neg (by decide)
  rw [readKeyValue, skipWhitespaces_eq hquote, hline]
  dsimp only
  rw [if_neg (by simp), hdrop, htake]
  dsimp only
  rw [if_neg (by simp), hequals]
  dsimp only
  rw [if_neg (by simp), readAfterEquals, hvalue]
  dsimp only
  rw [if_neg (by simp)]

theorem readKeyValue_writeLine {key value rest : List UInt8}
    (hkey : ∀ c ∈ key, isKeyChar c = true) (hrest : Unskipped rest) :
    readKeyValue (fun _ => false) (writeLine (key, value) ++ rest) =
      .ok (some ((key, value), rest)) := by
  obtain ⟨value', pending', hread, hall⟩ := readValue_escape key [] [] value chQuote
    (chSemicolon :: chNewline :: rest)
  have hline : writeLine (key, value) ++ rest =
      lineStart key ++ (escape value ++ chQuote :: chSemicolon :: chNewline :: rest) := by
    simp [writeLine, lineEnd]
  have hend : skipWhitespaces (chSemicolon :: chNewline :: rest) = chSemicolon :: chNewline :: rest :=
    List.dropWhile_cons_of_neg (by decide)
  rw [hline, readKeyValue_lineStart hkey, hread, readValue_quote, hall]
  dsimp only [Except.bind]
  rw [readSemicolon, hend]
  dsimp only
  rw [if_neg (by simp), skipWhitespaces_cons (by decide), skipWhitespaces_eq hrest]
  rfl

/-- Where a comment was cut out the value goes on with a space. -/
theorem readKeyValue_cut {key u rest : List UInt8} (hkey : ∀ c ∈ key, isKeyChar c = true)
    (pair : List UInt8 × List UInt8) (rest' : List UInt8)
    (h : readKeyValue (fun _ => false) (lineStart key ++ (escape u ++ chSpace :: rest)) =
      .ok (some (pair, rest'))) :
    ∃ t, pair.2 = u ++ chSpace :: t := by
  obtain ⟨value', pending', hread, hall⟩ := readValue_escape key [] [] u chSpace rest
  have hspace : ∀ read rest', readValue key false value' pending' (chSpace :: rest) =
      .ok (read, rest') → ∃ t, read = u ++ chSpace :: t := by
    intro read rest' hread
    cases rest with
    | nil =>
      rw [readValue, if_neg (by decide), if_neg (by decide)] at hread
      cases hread
    | cons d rest =>
      rw [readValue, if_neg (by decide), if_neg (by decide), if_neg (by decide)] at hread
      obtain ⟨t, ht⟩ := readValue_grows hread
      exact ⟨t, by rw [ht, ← List.append_assoc, hall]; simp⟩
  rw [readKeyValue_lineStart hkey, hread] at h
  cases hvalue : readValue key false value' pending' (chSpace :: rest) with
  | error e =>
    rw [hvalue] at h
    cases h
  | ok read =>
    obtain ⟨t, ht⟩ := hspace read.1 read.2 hvalue
    rw [hvalue] at h
    dsimp only [Except.bind] at h
    rw [readSemicolon] at h
    cases hskip : skipWhitespaces read.2 with
    | nil =>
      rw [hskip] at h
      cases h
    | cons c text =>
      rw [hskip] at h
      dsimp only at h
      split_ifs at h
      · cases h
      · simp only [Except.map, Except.ok.injEq, Option.some.injEq, Prod.mk.injEq] at h
        exact ⟨t, by rw [← h.1, ht]⟩

/-! ## Files -/

theorem lineStart_length (key : List UInt8) : 0 < (lineStart key).length := by
  simp [lineStart]

theorem parseLoop_cons {n : ℕ} {key value rest : List UInt8} (hkey : ∀ c ∈ key, isKeyChar c = true)
    (hrest : Unskipped rest) :
    parseLoop (fun _ => false) (n + 1) (writeLine (key, value) ++ rest) =
      ⟨(key, value) :: (parseLoop (fun _ => false) n rest).pairs,
        (parseLoop (fun _ => false) n rest).errors⟩ := by
  rw [parseLoop, if_neg (by simp [writeLine, lineStart]), readKeyValue_writeLine hkey hrest]
  rfl

/-- The written pairs are read one by one. -/
theorem parseLoop_writeFile {pairs : List (List UInt8 × List UInt8)} {n : ℕ} (rest : List UInt8)
    (hkeys : ∀ pair ∈ pairs, ∀ c ∈ pair.1, isKeyChar c = true) (hrest : Unskipped rest)
    (hn : (writeFile pairs ++ rest).length ≤ n) :
    ∃ m, rest.length ≤ m ∧ parseLoop (fun _ => false) n (writeFile pairs ++ rest) =
      ⟨pairs ++ (parseLoop (fun _ => false) m rest).pairs,
        (parseLoop (fun _ => false) m rest).errors⟩ := by
  induction pairs generalizing n with
  | nil => exact ⟨n, by simpa [writeFile] using hn, rfl⟩
  | cons pair pairs ih =>
    have hfile : writeFile (pair :: pairs) ++ rest =
        writeLine (pair.1, pair.2) ++ (writeFile pairs ++ rest) := by
      simp [writeFile]
    have hnext : Unskipped (writeFile pairs ++ rest) := by
      cases pairs with
      | nil => exact hrest
      | cons next pairs =>
        intro c hc
        refine writeFile_unskipped (next :: pairs) c ?_
        simpa [writeFile, writeLine, lineStart] using hc
    have hlength : 0 < (writeLine (pair.1, pair.2)).length := by simp [writeLine, lineStart]
    rw [hfile, List.length_append] at hn
    cases n with
    | zero => omega
    | succ n =>
      obtain ⟨m, hm, hparse⟩ := ih (n := n)
        (fun p hp => hkeys p (List.mem_cons_of_mem _ hp)) (by omega)
      refine ⟨m, hm, ?_⟩
      rw [hfile, parseLoop_cons (hkeys pair List.mem_cons_self) hnext, hparse]
      rfl

theorem parse_eq {content : List UInt8} (h : content ≠ []) :
    parse (fun _ => false) content = parseLoop (fun _ => false) content.length content := if_neg h

/-- What the reader makes of a file in which a comment was cut out of a value. -/
theorem parse_cut {done : List (List UInt8 × List UInt8)} {key u t : List UInt8}
    (hkeys : ∀ pair ∈ done, ∀ c ∈ pair.1, isKeyChar c = true)
    (hkey : ∀ c ∈ key, isKeyChar c = true) {value : List UInt8}
    {after : List (List UInt8 × List UInt8)} (hvalue : ∀ t, value ≠ u ++ chSpace :: t) :
    parse (fun _ => false) (writeFile done ++ (lineStart key ++ (escape u ++ chSpace :: t))) ≠
      ⟨done ++ (key, value) :: after, []⟩ := by
  have hrest : Unskipped (lineStart key ++ (escape u ++ chSpace :: t)) := by
    intro c hc
    simp only [lineStart, List.cons_append, List.head?_cons, Option.mem_some] at hc
    subst hc
    decide
  obtain ⟨m, hm, hparse⟩ := parseLoop_writeFile _ hkeys hrest le_rfl
  rw [parse_eq (by simp [lineStart]), hparse]
  intro h
  rw [Parsed.mk.injEq, List.append_cancel_left_eq] at h
  obtain ⟨hpairs, herrors⟩ := h
  cases m with
  | zero => simp [lineStart] at hm
  | succ m =>
    rw [parseLoop, if_neg (by simp [lineStart])] at hpairs herrors
    cases hread : readKeyValue (fun _ => false) (lineStart key ++ (escape u ++ chSpace :: t)) with
    | error e =>
      rw [hread] at herrors
      cases herrors
    | ok read =>
      rw [hread] at hpairs
      cases read with
      | none => cases hpairs
      | some read =>
        simp only [Bool.false_eq_true, if_false, List.cons.injEq] at hpairs
        obtain ⟨t', ht'⟩ := readKeyValue_cut hkey read.1 read.2 hread
        rw [hpairs.1] at ht'
        exact hvalue t' ht'

/-- A language file reads back as it was written exactly when no value holds what the
stripper takes for a comment. -/
theorem parseFile_writeFile_iff (pairs : List (List UInt8 × List UInt8)) (hpairs : pairs ≠ [])
    (hkeys : ∀ pair ∈ pairs, ∀ c ∈ pair.1, isKeyChar c = true) :
    parseFile (writeFile pairs) = ⟨pairs, []⟩ ↔ CommentsCovered pairs := by
  have hcovered : CommentsCovered pairs ↔ scanFile true pairs = true := by
    have hscan := scanFile_iff 0 pairs
    rw [decide_eq_true (Even.zero)] at hscan
    rw [hscan, CommentsCovered]
    simp only [Nat.zero_add]
  rw [hcovered, parseFile, stripComments]
  constructor
  · intro h
    by_contra hscan
    rw [Bool.not_eq_true] at hscan
    obtain ⟨done, key, value, after, u, w, t, rfl, rfl, hw, ht⟩ :=
      loop_file_comment [] (writeFile pairs) hkeys (by simp [Before]) hscan
    rw [Bool.not_true, List.reverse_nil, List.nil_append] at ht
    rw [ht] at h
    refine parse_cut (fun p hp => hkeys p (List.mem_append_left _ hp))
      (hkeys (key, u ++ w) (by simp)) ?_ h
    intro t' heq
    rw [List.append_cancel_left_eq] at heq
    rw [heq, startsComment_of_ne (by decide)] at hw
    cases hw
  · intro hscan
    obtain ⟨inside, hloop⟩ := loop_file [] hkeys (by simp [Before]) hscan
    rw [Bool.not_true, List.append_nil] at hloop
    rw [hloop, Strip.plain_finish _ _ _ (List.reverse_reverse _)]
    have hne : writeFile pairs ≠ [] := by
      cases pairs with
      | nil => exact absurd rfl hpairs
      | cons pair pairs => simp [writeFile, writeLine, lineStart]
    obtain ⟨m, -, hparse⟩ := parseLoop_writeFile [] hkeys (by simp [Unskipped]) le_rfl
    rw [List.append_nil] at hparse
    rw [parse_eq hne, hparse]
    cases m <;> simp [parseLoop]


theorem parseFile_writeFile_iff_one :
    parseFile (writeFile [([0x61], [0x62])]) = ⟨[([0x61], [0x62])], []⟩ ↔
      CommentsCovered [([0x61], [0x62])] :=
  parseFile_writeFile_iff [([0x61], [0x62])] (by decide) (by simp [isKeyChar])

/-- The value `\"//` is cut before its slashes. -/
theorem parseFile_loses_value :
    ¬ ∀ pairs : List (List UInt8 × List UInt8), pairs ≠ [] → (pairs.map Prod.fst).Nodup →
      (∀ pair ∈ pairs, ∀ c ∈ pair.1, isKeyChar c = true) →
      parseFile (writeFile pairs) = ⟨pairs, []⟩ := by
  intro h
  have hread := h [([0x61], [0x5C, 0x22, 0x2F, 0x2F])] (by decide) (by decide)
    (by simp [isKeyChar])
  revert hread
  decide

end Bettergram.Lang
