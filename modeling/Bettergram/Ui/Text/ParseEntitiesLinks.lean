import Bettergram.Ui.Text.ParseEntities
import Mathlib.Algebra.Order.Ring.Nat

/-! # The links of a text

Every round of the loop gets on, so the loop ends; the links come one behind the
other.
-/

namespace Bettergram.Ui.Text

variable {q : Tables} {m : Matchers} {flags : Flags} {text : QString}

/-! ## The end of a link -/

theorem endTest_le {p : ℕ} (h : p < text.length) : endTest text p ≤ text.length := by
  have := (List.takeWhile_prefix (l := text.drop (p + 1)) chIsAlmostLinkEnd).length_le
  rw [List.length_drop] at this
  rw [endTest]
  omega

theorem lt_endTest (text : QString) (p : ℕ) : p < endTest text p := by
  rw [endTest]
  omega

/-- A link ends behind its domain and inside the text. -/
theorem findLinkEnd_bounds (q : Tables) {first : ℕ} (p : ℕ) (parenth : List ℕ) (hp : first ≤ p)
    (hlength : p ≤ text.length)
    (hparenth : ∀ place ∈ parenth, first ≤ place ∧ place ≤ text.length) :
    first ≤ findLinkEnd q text p parenth ∧ findLinkEnd q text p parenth ≤ text.length := by
  induction hn : text.length - p using Nat.strong_induction_on generalizing p parenth with
  | _ n ih =>
    rw [findLinkEnd]
    by_cases h : p < text.length
    swap
    · rw [dif_neg h]
      exact ⟨hp, hlength⟩
    rw [dif_pos h]
    by_cases hend : chIsLinkEnd q (charAt text p) = true
    · rw [if_pos hend]
      exact ⟨hp, hlength⟩
    rw [if_neg hend]
    simp only
    by_cases hlast : (chIsAlmostLinkEnd (charAt text p) && (decide (text.length ≤ endTest text p) ||
        chIsLinkEnd q (charAt text (endTest text p)))) = true
    · rw [if_pos hlast]
      exact ⟨hp, hlength⟩
    rw [if_neg hlast]
    -- the place whose character decides how the loop goes on
    have hplace : p ≤ (if chIsAlmostLinkEnd (charAt text p) = true then endTest text p else p) ∧
        (if chIsAlmostLinkEnd (charAt text p) = true then endTest text p else p) < text.length := by
      split_ifs with halmost
      · have := lt_endTest text p
        simp only [halmost, Bool.true_and, Bool.or_eq_true, decide_eq_true_eq, not_or, not_le]
          at hlast
        exact ⟨this.le, hlast.1⟩
      · exact ⟨le_rfl, h⟩
    generalize (if chIsAlmostLinkEnd (charAt text p) = true then endTest text p else p) = place
      at hplace
    have hnext : ∀ parenth : List ℕ, (∀ x ∈ parenth, first ≤ x ∧ x ≤ text.length) →
        first ≤ findLinkEnd q text (place + 1) parenth ∧
          findLinkEnd q text (place + 1) parenth ≤ text.length := fun parenth hall =>
      ih (text.length - (place + 1)) (by omega) (place + 1) parenth (by omega) (by omega) hall rfl
    split_ifs with hopen hclose
    · refine hnext _ fun x hx => ?_
      obtain rfl | hx := List.mem_cons.mp hx
      · omega
      · exact hparenth x hx
    · cases parenth with
      | nil =>
        simp only
        omega
      | cons opening rest =>
        simp only
        split_ifs
        · exact hnext rest fun x hx => hparenth x (List.mem_cons_of_mem _ hx)
        · exact hparenth opening List.mem_cons_self
    · exact hnext parenth hparenth

/-! ## Mentions -/

theorem mentionLoop_spec (q : Tables) (hm : m.Inside text) {matchOffset : ℕ} (fuel : ℕ)
    {found : RegExpMatch} (mentionSkip : ℕ) (hfound : MatchInside text matchOffset 2 found)
    (hfuel : text.length < fuel + trimmedEnd found 2) :
    ∃ mention, mentionLoop q m text matchOffset fuel found mentionSkip = some mention ∧
      matchOffset ≤ mention.mentionStart ∧ mention.mentionStart < mention.mentionEnd ∧
      mention.mentionEnd ≤ text.length := by
  have hstart : matchOffset ≤ trimmedStart found := by
    have := hfound.start
    rw [trimmedStart]
    split_ifs <;> omega
  have hend : trimmedEnd found 2 ≤ text.length := by
    have := hfound.stop
    rw [trimmedEnd]
    split_ifs <;> omega
  induction fuel generalizing found mentionSkip with
  | zero => omega
  | succ fuel ih =>
    rw [mentionLoop]
    split_ifs
    · cases hnext : m.mention (max (trimmedEnd found 2) matchOffset) with
      | none => exact ⟨_, rfl, hstart, hfound.nonempty, hend⟩
      | some next =>
        have hinside := hm.mention _ next hnext
        have hbehind : trimmedEnd found 2 ≤ trimmedStart next := by
          have := (le_max_left _ _).trans hinside.start
          rw [trimmedStart]
          split_ifs <;> omega
        have hnextEnd : trimmedEnd next 2 ≤ text.length := by
          have := hinside.stop
          rw [trimmedEnd]
          split_ifs <;> omega
        have := hinside.nonempty
        have hfrom := (le_max_right _ _).trans hinside.start
        have hnextStart : matchOffset ≤ trimmedStart next := by
          rw [trimmedStart]
          split_ifs <;> omega
        exact ih (trimmedEnd found 2) ⟨hfrom, hinside.nonempty, hinside.stop⟩ (by omega)
          hnextStart hnextEnd
    · exact ⟨_, rfl, hstart, hfound.nonempty, hend⟩

/-- The mention the loop looks at is inside the searched range. -/
theorem findMention_spec (q : Tables) (flags : Flags) (hm : m.Inside text)
    (mentionSkip matchOffset : ℕ) :
    ∃ mention, findMention q m flags text mentionSkip matchOffset = some mention ∧
      (mention.mentionStart = kNotFound ∨ matchOffset ≤ mention.mentionStart ∧
        mention.mentionStart < mention.mentionEnd ∧ mention.mentionEnd ≤ text.length) ∧
      (mention.hasMatch = true → mention.mentionStart < text.length) := by
  rw [findMention]
  cases hfind : (if flags.withMentions = true then m.mention (max mentionSkip matchOffset)
      else none) with
  | none => exact ⟨_, rfl, .inl rfl, fun hno => absurd hno Bool.false_ne_true⟩
  | some found =>
    split_ifs at hfind
    have hinside := hm.mention _ found hfind
    have hfrom := (le_max_right _ _).trans hinside.start
    obtain ⟨mention, hmention, hspec⟩ := mentionLoop_spec q hm (text.length + 1) mentionSkip
      (⟨hfrom, hinside.nonempty, hinside.stop⟩ : MatchInside text matchOffset 2 found)
      (by omega)
    exact ⟨mention, hmention, .inr hspec, fun _ => by omega⟩


/-! ## Rounds -/

/-- A round that does not stop gets behind `matchOffset`, and a link of it lies behind
`offset`. -/
def GetsOn (text : QString) (s : Scan) : Round → Prop
  | .stop => True
  | .skip next => s.offset ≤ next.offset ∧ next.offset ≤ next.matchOffset ∧
      s.matchOffset < next.matchOffset ∧ next.matchOffset ≤ text.length
  | .link _ lnkStart lnkLength _ => s.offset ≤ lnkStart ∧ 0 < lnkLength ∧
      s.matchOffset < lnkStart + lnkLength ∧ lnkStart + lnkLength ≤ text.length

theorem domainRound_getsOn (hm : m.Inside text) {s : Scan} (hs : s.offset ≤ s.matchOffset)
    {found : RegExpMatch} (hfound : DomainInside text s.matchOffset found) (mentionSkip : ℕ) :
    GetsOn text s (domainRound q m text s mentionSkip found) := by
  have hstart := hfound.start
  have hnonempty := hfound.nonempty
  have hstop := hfound.stop
  have hskip : GetsOn text s (.skip { s with matchOffset := found.capturedEnd, mentionSkip }) :=
    ⟨le_rfl, by simp only; omega, by simp only; omega, hstop⟩
  rw [domainRound]
  simp only
  cases hmail : findMailStart m text s.offset found.capturedStart
      (m.toLower (found.captured 1)) with
  | some mailStart =>
    rw [findMailStart] at hmail
    split_ifs at hmail with hat
    rw [Option.map_eq_some_iff] at hmail
    obtain ⟨start, hpiece, rfl⟩ := hmail
    have hle := hm.mailNameAtEnd _ start hpiece
    have : start ≤ found.capturedStart - s.offset - 1 := by
      rw [mid, List.length_take] at hle
      omega
    exact ⟨by omega, by omega, by omega, by omega⟩
  | none =>
    obtain ⟨hfirst, hlast⟩ := findLinkEnd_bounds q found.capturedEnd [] le_rfl hstop (by simp)
    simp only
    split_ifs
    · exact hskip
    · exact hskip
    · exact ⟨by omega, by omega, by omega, by omega⟩

/-- The start of what was found, and `kNotFound` for nothing. -/
theorem startOf_le {found : Option RegExpMatch} {start : RegExpMatch → ℕ}
    (h : ∀ m ∈ found, start m ≤ kNotFound) : startOf found start ≤ kNotFound := by
  cases found with
  | none => exact le_rfl
  | some m => exact h m rfl

theorem eq_some_of_startOf_lt {found : Option RegExpMatch} {start : RegExpMatch → ℕ} {bound : ℕ}
    (hlt : startOf found start < bound) (hbound : bound ≤ kNotFound) :
    ∃ m, found = some m ∧ startOf found start = start m := by
  cases found with
  | none => exact absurd (hlt.trans_le hbound) (lt_irrefl _)
  | some m => exact ⟨m, rfl, rfl⟩

theorem MatchInside.bounds {offset last : ℕ} {found : RegExpMatch}
    (h : MatchInside text offset last found) : offset ≤ trimmedStart found ∧
      trimmedStart found < trimmedEnd found last ∧ trimmedEnd found last ≤ text.length := by
  have hstart := h.start
  have hstop := h.stop
  refine ⟨?_, h.nonempty, ?_⟩
  · rw [trimmedStart]
    split_ifs <;> omega
  · rw [trimmedEnd]
    split_ifs <;> omega

/-- Without a domain of either kind none is chosen, and only then. -/
theorem eq_none_of_chosen (mDomain mExplicitDomain : Option RegExpMatch)
    (hdomain : ∀ found, mDomain = some found → found.capturedStart < kNotFound)
    (hexplicit : ∀ found, mExplicitDomain = some found → found.capturedStart < kNotFound)
    (h : (if startOf mExplicitDomain RegExpMatch.capturedStart <
      startOf mDomain RegExpMatch.capturedStart then mExplicitDomain else mDomain) = none) :
    mDomain = none ∧ mExplicitDomain = none := by
  split_ifs at h with hlt
  · cases hd : mDomain with
    | none =>
      rw [h, hd] at hlt
      exact absurd hlt (lt_irrefl _)
    | some found =>
      rw [h, hd] at hlt
      exact absurd (hlt.trans (hdomain found hd)) (lt_irrefl _)
  · refine ⟨h, ?_⟩
    cases he : mExplicitDomain with
    | none => rfl
    | some found =>
      rw [h, he] at hlt
      exact absurd (hexplicit found he) hlt

theorem findLink_getsOn (q : Tables) (flags : Flags) (hm : m.Inside text)
    (hsize : text.length ≤ kNotFound) {s : Scan} (hs : s.offset ≤ s.matchOffset) :
    ∃ round, findLink q m flags text s = some round ∧ GetsOn text s round := by
  obtain ⟨mention, hmention, hbounds, hmatch⟩ :=
    findMention_spec q flags hm s.mentionSkip s.matchOffset
  rw [findLink]
  simp only [hmention, Option.bind_some]
  have hdomain := fun found => hm.domain s.matchOffset found
  have hexplicit := fun found => hm.domainExplicit s.matchOffset found
  have hhashtag : ∀ found, (if flags.withHashtags = true then m.hashtag s.matchOffset else none) =
      some found → MatchInside text s.matchOffset 2 found := by
    intro found h
    split_ifs at h
    exact hm.hashtag _ found h
  have hbot : ∀ found, (if flags.withBotCommands = true then m.botCommand s.matchOffset
      else none) = some found → MatchInside text s.matchOffset 3 found := by
    intro found h
    split_ifs at h
    exact hm.botCommand _ found h
  generalize (if flags.withHashtags = true then m.hashtag s.matchOffset else none) = mHashtag
    at hhashtag ⊢
  generalize (if flags.withBotCommands = true then m.botCommand s.matchOffset else none) =
    mBotCommand at hbot ⊢
  generalize m.domain s.matchOffset = mDomain at hdomain ⊢
  generalize m.domainExplicit s.matchOffset = mExplicitDomain at hexplicit ⊢
  by_cases hnone : (mDomain.isNone && mExplicitDomain.isNone && mHashtag.isNone &&
      !mention.hasMatch && mBotCommand.isNone) = true
  · rw [if_pos hnone]
    exact ⟨.stop, rfl, trivial⟩
  rw [if_neg hnone]
  have hchosen : ∀ found, (if startOf mExplicitDomain RegExpMatch.capturedStart <
      startOf mDomain RegExpMatch.capturedStart then mExplicitDomain else mDomain) = some found →
      DomainInside text s.matchOffset found := by
    intro found h
    split_ifs at h
    · exact hexplicit found h
    · exact hdomain found h
  have hchosenNone := eq_none_of_chosen mDomain mExplicitDomain
    (fun found h => by
      have := hdomain found h
      exact (this.nonempty.trans_le this.stop).trans_le hsize)
    (fun found h => by
      have := hexplicit found h
      exact (this.nonempty.trans_le this.stop).trans_le hsize)
  generalize (if startOf mExplicitDomain RegExpMatch.capturedStart <
    startOf mDomain RegExpMatch.capturedStart then mExplicitDomain else mDomain) = chosen
    at hchosen hchosenNone ⊢
  have hdomainStart : startOf chosen RegExpMatch.capturedStart ≤ kNotFound :=
    startOf_le fun found h => by
      have := hchosen found h
      exact ((this.nonempty.trans_le this.stop).trans_le hsize).le
  have hhashtagStart : startOf mHashtag trimmedStart ≤ kNotFound :=
    startOf_le fun found h => by
      obtain ⟨-, hlt, hle⟩ := (hhashtag found h).bounds
      exact ((hlt.trans_le hle).trans_le hsize).le
  by_cases h1 : mention.mentionStart < startOf mHashtag trimmedStart ∧
      mention.mentionStart < startOf chosen RegExpMatch.capturedStart ∧
      mention.mentionStart < startOf mBotCommand trimmedStart
  · rw [if_pos h1]
    obtain hno | ⟨hfrom, hlt, hle⟩ := hbounds
    · have := h1.1
      omega
    split_ifs
    · exact ⟨_, rfl, by simp only; omega, le_rfl, by simp only; omega, hle⟩
    · exact ⟨_, rfl, by omega, by omega, by omega, by omega⟩
  rw [if_neg h1]
  by_cases h2 : startOf mHashtag trimmedStart < startOf chosen RegExpMatch.capturedStart ∧
      startOf mHashtag trimmedStart < startOf mBotCommand trimmedStart
  · rw [if_pos h2]
    obtain ⟨found, rfl, -⟩ := eq_some_of_startOf_lt h2.1 hdomainStart
    obtain ⟨hfrom, hlt, hle⟩ := (hhashtag found rfl).bounds
    split_ifs
    all_goals
      refine ⟨_, rfl, ?_⟩
      simp only [GetsOn, startOf, Option.map_some, Option.getD_some]
      omega
  rw [if_neg h2]
  by_cases h3 : startOf mBotCommand trimmedStart < startOf chosen RegExpMatch.capturedStart
  · rw [if_pos h3]
    obtain ⟨found, rfl, -⟩ := eq_some_of_startOf_lt h3 hdomainStart
    obtain ⟨hfrom, hlt, hle⟩ := (hbot found rfl).bounds
    simp only [startOf, Option.map_some, Option.getD_some]
    exact ⟨_, rfl, by omega, by omega, by omega, by omega⟩
  rw [if_neg h3]
  cases chosen with
  | some found => exact ⟨_, rfl, domainRound_getsOn hm hs (hchosen found rfl) _⟩
  | none =>
    -- nothing was found, which the first test has excluded
    exfalso
    obtain ⟨rfl, rfl⟩ := hchosenNone rfl
    have hbotNone : mBotCommand = none := by
      cases mBotCommand with
      | none => rfl
      | some found =>
        obtain ⟨-, hlt, hle⟩ := (hbot found rfl).bounds
        exact absurd ((hlt.trans_le hle).trans_le hsize) h3
    subst hbotNone
    have hhashtagNone : mHashtag = none := by
      cases mHashtag with
      | none => rfl
      | some found =>
        obtain ⟨-, hlt, hle⟩ := (hhashtag found rfl).bounds
        have := (hlt.trans_le hle).trans_le hsize
        exact absurd ⟨this, this⟩ h2
    subst hhashtagNone
    have hmentionNone : mention.hasMatch = false := by
      by_contra hyes
      have := (hmatch (Bool.eq_true_of_not_eq_false hyes)).trans_le hsize
      exact h1 ⟨this, this, this⟩
    rw [hmentionNone] at hnone
    exact hnone rfl

end Bettergram.Ui.Text
