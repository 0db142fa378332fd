import Bettergram.Ui.Text.ParseEntitiesLinks
import Bettergram.Ui.Text.RichEntities

/-! # Tags of a rich text

All that is read for a tag is inside the text, and the tag lies behind the place
that it was searched from.
-/

namespace Bettergram.Ui.Text.Rich
open Foundation

variable {q : Tables} {m : Matchers} {flags : Flags} {text : QString}

theorem readChar_pred {place : ℕ} (hpos : 0 < place) (hle : place ≤ text.length) :
    Returns (readChar text ((place : ℤ) - 1)) fun _ => True := by
  have hpred : (place : ℤ) - 1 = (place - 1 : ℕ) := by omega
  rw [hpred]
  exact (readChar_returns (by omega)).imp fun _ _ => trivial

/-! ## Mentions -/

theorem readLast_returns (first : QChar) {mentionEnd : ℕ} (hpos : 0 < mentionEnd)
    (hle : mentionEnd ≤ text.length) : Returns (readLast q text first mentionEnd) fun _ => True :=
  returns_ite (fun _ => readChar_pred hpos hle) fun _ => returns_pure trivial

/-- The mention that the loop comes to. -/
structure MentionInside (text : QString) (matchOffset mentionSkip : ℕ) (mention : Mention) :
    Prop where
  start : matchOffset ≤ mention.mentionStart
  nonempty : mention.mentionStart < mention.mentionEnd
  stop : mention.mentionEnd ≤ text.length
  skip : mentionSkip ≤ mention.mentionSkip
  skip_le : mention.mentionSkip ≤ text.length

theorem mentionLoop_returns (q : Tables) (hm : m.Inside text) {matchOffset mentionSkip rounds : ℕ}
    {found : RegExpMatch} (hskip : mentionSkip ≤ text.length)
    (hfound : MatchInside text (max mentionSkip matchOffset) 2 found)
    (hrounds : text.length < rounds + trimmedEnd found 2) :
    Returns (mentionLoop q m text matchOffset rounds found mentionSkip)
      (MentionInside text matchOffset mentionSkip) := by
  induction rounds generalizing found mentionSkip with
  | zero =>
    have := hfound.bounds
    omega
  | succ rounds ih =>
    obtain ⟨hstart, hlt, hend⟩ := hfound.bounds
    rw [max_le_iff] at hstart
    rw [mentionLoop]
    refine (readChar_returns (by omega)).bind fun first _ => ?_
    refine (readLast_returns first (by omega) hend).bind fun last _ =>
      returns_ite (fun _ => ?_) fun _ => returns_pure ⟨hstart.2, hlt, hend, le_rfl, hskip⟩
    cases hnext : m.mention (max (trimmedEnd found 2) matchOffset) with
    | none => exact returns_pure ⟨hstart.2, hlt, hend, (hstart.1.trans hlt.le), hend⟩
    | some next =>
      have hinside := hm.mention _ next hnext
      obtain ⟨hnextStart, hnextLt, -⟩ := hinside.bounds
      rw [max_le_iff] at hnextStart
      refine (ih hend hinside (by omega)).imp fun mention hmention => ?_
      exact { hmention with skip := (hstart.1.trans hlt.le).trans hmention.skip }

theorem findMention_returns (q : Tables) (flags : Flags) (hm : m.Inside text)
    {mentionSkip : ℕ} (hskip : mentionSkip ≤ text.length) (matchOffset : ℕ) :
    Returns (findMention q m flags text mentionSkip matchOffset) fun mention =>
      mentionSkip ≤ mention.mentionSkip ∧ mention.mentionSkip ≤ text.length ∧
        (mention.mentionStart = kNotFound ∧ mention.hasMatch = false ∨
          MentionInside text matchOffset mentionSkip mention) := by
  rw [findMention]
  cases hfind : (if flags.withMentions = true then m.mention (max mentionSkip matchOffset)
      else none) with
  | none => exact returns_pure ⟨le_rfl, hskip, .inl ⟨rfl, rfl⟩⟩
  | some found =>
    split_ifs at hfind
    have hinside := hm.mention _ found hfind
    refine (mentionLoop_returns q hm hskip hinside (by omega)).imp fun mention hmention => ?_
    exact ⟨hmention.skip, hmention.skip_le, .inr hmention⟩

/-! ## Domains -/

theorem findLinkEnd_returns (q : Tables) {first rounds p : ℕ} (hp : first ≤ p)
    (hlength : p ≤ text.length) (hrounds : text.length < rounds + p) {parenth : List ℕ}
    (hparenth : ∀ place ∈ parenth, first ≤ place ∧ place ≤ text.length) :
    Returns (findLinkEnd q text rounds p parenth) fun stop =>
      first ≤ stop ∧ stop ≤ text.length := by
  induction rounds generalizing p parenth with
  | zero => omega
  | succ rounds ih =>
    rw [findLinkEnd]
    refine returns_ite (fun hlt => ?_) fun _ => returns_pure ⟨hp, hlength⟩
    refine (readChar_returns hlength).bind fun ch _ =>
      returns_ite (fun _ => returns_pure ⟨hp, hlength⟩) fun _ => ?_
    have hplace : p ≤ (if chIsAlmostLinkEnd ch = true then endTest text p else p) ∧
        (if chIsAlmostLinkEnd ch = true then endTest text p else p) ≤ text.length := by
      split
      · exact ⟨(lt_endTest text p).le, endTest_le hlt⟩
      · exact ⟨le_rfl, hlength⟩
    refine returns_ite (fun _ => returns_pure ⟨hp, hlength⟩) fun hinside => ?_
    have hplaceLt : (if chIsAlmostLinkEnd ch = true then endTest text p else p) < text.length := by
      by_cases halmost : chIsAlmostLinkEnd ch = true
      · simpa [halmost] using hinside
      · rw [if_neg halmost]
        exact hlt
    generalize (if chIsAlmostLinkEnd ch = true then endTest text p else p) = place
      at hplace hplaceLt ⊢
    have hnext : ∀ parenth : List ℕ, (∀ x ∈ parenth, first ≤ x ∧ x ≤ text.length) →
        Returns (findLinkEnd q text rounds (place + 1) parenth) fun stop =>
          first ≤ stop ∧ stop ≤ text.length := fun parenth hall =>
      ih (by omega) (by omega) (by omega) hall
    refine (readChar_returns hplace.2).bind fun ch' _ =>
      returns_ite (fun _ => returns_pure ⟨hp, hlength⟩) fun _ => returns_ite (fun _ => ?_) fun _ =>
        returns_ite (fun _ => ?_) fun _ => hnext parenth hparenth
    · refine hnext _ fun x hx => ?_
      obtain rfl | hx := List.mem_cons.mp hx
      · omega
      · exact hparenth x hx
    · cases parenth with
      | nil => exact returns_pure ⟨by omega, hplace.2⟩
      | cons opening rest =>
        have hopening := hparenth opening List.mem_cons_self
        refine (readChar_returns hopening.2).bind fun before _ => returns_ite (fun _ => ?_) fun _ =>
          returns_pure hopening
        exact hnext rest fun x hx => hparenth x (List.mem_cons_of_mem _ hx)

theorem findMailStart_returns (hm : m.Inside text) {offset domainStart : ℕ} (protocol : QString)
    (hstart : domainStart ≤ text.length) :
    Returns (findMailStart m text offset domainStart protocol) fun mail =>
      ∀ start, mail = some start → offset ≤ start ∧ start < domainStart := by
  rw [findMailStart]
  refine returns_ite (fun hfar => ?_) fun _ => returns_pure fun _ h => absurd h (by simp)
  refine (readChar_pred (by omega) hstart).bind fun before _ => returns_pure fun start h => ?_
  split at h
  swap
  · exact absurd h (by simp)
  rw [Option.map_eq_some_iff] at h
  obtain ⟨piece, hpiece, rfl⟩ := h
  have hle := hm.mailNameAtEnd _ piece hpiece
  rw [mid, List.length_take] at hle
  omega

/-- The round's `mentionSkip`. -/
def skipOf : Round → ℕ
  | .stop => 0
  | .skip next => next.mentionSkip
  | .link _ _ _ mentionSkip => mentionSkip

theorem domainRound_returns (hm : m.Inside text) {s : Scan} (hs : s.offset ≤ s.matchOffset)
    {found : RegExpMatch} (hfound : DomainInside text s.matchOffset found) (mentionSkip : ℕ) :
    Returns (domainRound q m text s mentionSkip found) fun round =>
      GetsOn text s round ∧ skipOf round = mentionSkip := by
  have hstart := hfound.start
  have hnonempty := hfound.nonempty
  have hstop := hfound.stop
  have hskip : GetsOn text s (.skip { s with matchOffset := found.capturedEnd, mentionSkip }) :=
    ⟨le_rfl, by simp only; omega, by simp only; omega, hstop⟩
  rw [domainRound]
  refine (findMailStart_returns hm _ (by omega)).bind fun mail hmail => ?_
  cases mail with
  | some mailStart =>
    have hbounds := hmail mailStart rfl
    exact returns_pure ⟨⟨by omega, by omega, by omega, by omega⟩, rfl⟩
  | none =>
    refine returns_ite (fun _ => returns_pure ⟨hskip, rfl⟩) fun _ => ?_
    refine (findLinkEnd_returns q le_rfl hstop (by omega) (by simp)).bind fun p hp => ?_
    have hlink : GetsOn text s
        (.link .url found.capturedStart (p - found.capturedStart) mentionSkip) :=
      ⟨by omega, by omega, by omega, by omega⟩
    refine returns_ite (fun _ => ?_) fun _ => returns_pure ⟨hlink, rfl⟩
    refine (readChar_returns hstop).bind fun behind _ => returns_pure ?_
    split
    · exact ⟨hskip, rfl⟩
    · exact ⟨hlink, rfl⟩

/-! ## The choice -/

/-- A tag behind the place that it was searched from, and a round for it that gets on. -/
def TagInside (text : QString) (s : Scan) (mentionSkip : ℕ) : Tag → Prop
  | .nothing => True
  | .ignored place => s.matchOffset < place ∧ place ≤ text.length
  | .found tagStart round => s.matchOffset ≤ tagStart ∧
      Returns round fun round => GetsOn text s round ∧ skipOf round = mentionSkip

/-- The matches that the choice is made between are inside the searched range. -/
structure Choice (text : QString) (matchOffset : ℕ)
    (mHashtag mBotCommand chosen : Option RegExpMatch) : Prop where
  hashtag : ∀ found, mHashtag = some found → MatchInside text matchOffset 2 found
  botCommand : ∀ found, mBotCommand = some found → MatchInside text matchOffset 3 found
  domain : ∀ found, chosen = some found → DomainInside text matchOffset found
  size : text.length ≤ kNotFound

section Choice

variable {matchOffset : ℕ} {mHashtag mBotCommand chosen : Option RegExpMatch}

theorem Choice.domainStart_le (h : Choice text matchOffset mHashtag mBotCommand chosen) :
    startOf chosen RegExpMatch.capturedStart ≤ kNotFound :=
  startOf_le fun found hfound => by
    have := h.domain found hfound
    exact ((this.nonempty.trans_le this.stop).trans_le h.size).le

theorem Choice.hashtagStart_le (h : Choice text matchOffset mHashtag mBotCommand chosen) :
    startOf mHashtag trimmedStart ≤ kNotFound :=
  startOf_le fun found hfound => by
    obtain ⟨-, hlt, hle⟩ := (h.hashtag found hfound).bounds
    exact ((hlt.trans_le hle).trans_le h.size).le

/-- Without a domain the choice falls on one of the others, if there is one. -/
theorem Choice.nothing {mention : Mention} (h : Choice text matchOffset mHashtag mBotCommand none)
    (hmention : mention.hasMatch = true → mention.mentionStart < text.length)
    (h1 : ¬(mention.mentionStart < startOf mHashtag trimmedStart ∧
      mention.mentionStart < kNotFound ∧ mention.mentionStart < startOf mBotCommand trimmedStart))
    (h2 : ¬(startOf mHashtag trimmedStart < kNotFound ∧
      startOf mHashtag trimmedStart < startOf mBotCommand trimmedStart))
    (h3 : ¬startOf mBotCommand trimmedStart < kNotFound) :
    mHashtag = none ∧ mBotCommand = none ∧ mention.hasMatch = false := by
  have hbotNone : mBotCommand = none := by
    cases hfound : mBotCommand with
    | none => rfl
    | some found =>
      obtain ⟨-, hlt, hle⟩ := (h.botCommand found hfound).bounds
      rw [hfound] at h3
      exact absurd ((hlt.trans_le hle).trans_le h.size) h3
  subst hbotNone
  have hhashtagNone : mHashtag = none := by
    cases hfound : mHashtag with
    | none => rfl
    | some found =>
      obtain ⟨-, hlt, hle⟩ := (h.hashtag found hfound).bounds
      have hbelow := (hlt.trans_le hle).trans_le h.size
      rw [hfound] at h2
      exact absurd ⟨hbelow, hbelow⟩ h2
  subst hhashtagNone
  refine ⟨rfl, rfl, ?_⟩
  by_contra hyes
  have hbelow := (hmention (Bool.eq_true_of_not_eq_false hyes)).trans_le h.size
  exact h1 ⟨hbelow, hbelow, hbelow⟩

end Choice

theorem findTag_returns (q : Tables) (flags : Flags) (hm : m.Inside text)
    (hsize : text.length ≤ kNotFound) {s : Scan} (hs : s.offset ≤ s.matchOffset)
    (hskip : s.mentionSkip ≤ text.length) :
    Returns (findTag q m flags text s) fun r =>
      r.2 ≤ text.length ∧ TagInside text s r.2 r.1 := by
  rw [findTag]
  refine (findMention_returns q flags hm hskip s.matchOffset).bind fun mention hmention => ?_
  obtain ⟨-, hle, hmention⟩ := hmention
  rw [chooseTag]
  have hmatch : mention.hasMatch = true → mention.mentionStart < text.length := by
    rintro hyes
    obtain ⟨-, hno⟩ | hinside := hmention
    · exact absurd hyes (by simp [hno])
    · exact hinside.nonempty.trans_le hinside.stop
  have hdomain := fun found => hm.domain s.matchOffset found
  have hexplicit := fun found => hm.domainExplicit s.matchOffset found
  have hhashtag : ∀ found, (if flags.withHashtags = true then m.hashtag s.matchOffset else none) =
      some found → MatchInside text s.matchOffset 2 found := by
    intro found h
    split_ifs at h
    exact hm.hashtag _ found h
  have hbot : ∀ found, (if flags.withBotCommands = true then m.botCommand s.matchOffset
      else none) = some found → MatchInside text s.matchOffset 3 found := by
    intro found h
    split_ifs at h
    exact hm.botCommand _ found h
  generalize (if flags.withHashtags = true then m.hashtag s.matchOffset else none) = mHashtag
    at hhashtag ⊢
  generalize (if flags.withBotCommands = true then m.botCommand s.matchOffset else none) =
    mBotCommand at hbot ⊢
  generalize m.domain s.matchOffset = mDomain at hdomain ⊢
  generalize m.domainExplicit s.matchOffset = mExplicitDomain at hexplicit ⊢
  refine returns_ite (fun _ => returns_pure ⟨hle, trivial⟩) fun hnone => ?_
  have hchosen : ∀ found, (if startOf mExplicitDomain RegExpMatch.capturedStart <
      startOf mDomain RegExpMatch.capturedStart then mExplicitDomain else mDomain) = some found →
      DomainInside text s.matchOffset found := by
    intro found h
    split_ifs at h
    · exact hexplicit found h
    · exact hdomain found h
  have hchosenNone := eq_none_of_chosen mDomain mExplicitDomain
    (fun found h => by
      have := hdomain found h
      exact (this.nonempty.trans_le this.stop).trans_le hsize)
    (fun found h => by
      have := hexplicit found h
      exact (this.nonempty.trans_le this.stop).trans_le hsize)
  dsimp only at hchosen hchosenNone ⊢
  generalize (if startOf mExplicitDomain RegExpMatch.capturedStart <
    startOf mDomain RegExpMatch.capturedStart then mExplicitDomain else mDomain) = chosen
    at hchosen hchosenNone ⊢
  have hchoice : Choice text s.matchOffset mHashtag mBotCommand chosen :=
    ⟨hhashtag, hbot, hchosen, hsize⟩
  refine returns_ite (fun h1 => ?_) fun h1 => returns_ite (fun h2 => ?_) fun h2 =>
    returns_ite (fun h3 => ?_) fun h3 => ?_
  · obtain ⟨hno, -⟩ | hinside := hmention
    · have := hchoice.hashtagStart_le
      omega
    have hstart := hinside.start
    have hlt := hinside.nonempty
    have hstop := hinside.stop
    refine returns_ite (fun _ => returns_pure ⟨hle, by omega, hstop⟩) fun _ =>
      returns_pure ⟨hle, hstart, returns_pure ⟨⟨by omega, by omega, by omega, by omega⟩, rfl⟩⟩
  · obtain ⟨found, rfl, -⟩ := eq_some_of_startOf_lt h2.1 hchoice.domainStart_le
    obtain ⟨hfrom, hlt, hstop⟩ := (hhashtag found rfl).bounds
    simp only [startOf, Option.map_some, Option.getD_some]
    refine returns_ite (fun _ => returns_pure ⟨hle, by omega, hstop⟩) fun _ =>
      returns_pure ⟨hle, hfrom, returns_pure ⟨⟨by omega, by omega, by omega, by omega⟩, rfl⟩⟩
  · obtain ⟨found, rfl, -⟩ := eq_some_of_startOf_lt h3 hchoice.domainStart_le
    obtain ⟨hfrom, hlt, hstop⟩ := (hbot found rfl).bounds
    simp only [startOf, Option.map_some, Option.getD_some]
    exact returns_pure ⟨hle, hfrom, returns_pure ⟨⟨by omega, by omega, by omega, by omega⟩, rfl⟩⟩
  · cases chosen with
    | some found =>
      exact returns_pure ⟨hle, (hchosen found rfl).start,
        domainRound_returns hm hs (hchosen found rfl) _⟩
    | none =>
      -- nothing was found, which the first test has excluded
      exfalso
      obtain ⟨rfl, rfl⟩ := hchosenNone rfl
      obtain ⟨rfl, rfl, hmentionNone⟩ := hchoice.nothing hmatch h1 h2 h3
      rw [hmentionNone] at hnone
      exact hnone rfl


/-! ## What is found again -/

/-- The mention that is found when the search begins where this one has come to. -/
def again (mention : Mention) : Mention :=
  if mention.hasMatch then mention
  else ⟨false, kNotFound, kNotFound, mention.mentionSkip, false⟩

theorem mentionLoop_again {matchOffset mentionSkip rounds : ℕ} {found : RegExpMatch}
    {mention : Mention} (hmentions : flags.withMentions = true)
    (hfound : m.mention (max mentionSkip matchOffset) = some found)
    (h : mentionLoop q m text matchOffset rounds found mentionSkip = .ok mention) :
    findMention q m flags text mention.mentionSkip matchOffset = .ok (again mention) ∧
      (mention.hasMatch = false → mention.mentionIgnore = true) := by
  induction rounds generalizing found mentionSkip with
  | zero => exact absurd h (by simp [mentionLoop])
  | succ rounds ih =>
    have hsteps := h
    rw [mentionLoop] at hsteps
    obtain ⟨first, hfirst, hsteps⟩ := exists_of_bind_eq_ok hsteps
    obtain ⟨last, hlast, -⟩ := exists_of_bind_eq_ok hsteps
    have hround : ∀ rounds, mentionLoop q m text matchOffset (rounds + 1) found mentionSkip =
        if (!q.isLetter first || !q.isLetterOrNumber last) = true then
          (m.mention (max (trimmedEnd found 2) matchOffset)).elim
            (.ok ⟨false, trimmedStart found, trimmedEnd found 2, trimmedEnd found 2, true⟩)
            fun next => mentionLoop q m text matchOffset rounds next (trimmedEnd found 2)
        else .ok ⟨true, trimmedStart found, trimmedEnd found 2, mentionSkip, false⟩ := by
      intro rounds
      rw [mentionLoop, hfirst]
      change (readLast q text first (trimmedEnd found 2) >>= _) = _
      rw [hlast]
      cases m.mention (max (trimmedEnd found 2) matchOffset) <;> rfl
    rw [hround] at h
    split_ifs at h with hbad
    · cases hnext : m.mention (max (trimmedEnd found 2) matchOffset) with
      | some next =>
        rw [hnext] at h
        exact ih hnext h
      | none =>
        rw [hnext] at h
        rw [← Except.ok.inj h]
        refine ⟨?_, fun _ => rfl⟩
        rw [findMention, if_pos hmentions]
        dsimp only
        rw [hnext]
        rfl
    · rw [← Except.ok.inj h]
      refine ⟨?_, fun hno => absurd hno (by simp)⟩
      rw [findMention, if_pos hmentions]
      dsimp only
      rw [hfound]
      exact (hround text.length).trans (if_neg hbad)

theorem findMention_again {mentionSkip matchOffset : ℕ} {mention : Mention}
    (h : findMention q m flags text mentionSkip matchOffset = .ok mention) :
    findMention q m flags text mention.mentionSkip matchOffset = .ok (again mention) ∧
      (mention.hasMatch = false →
        mention.mentionIgnore = true ∨ mention.mentionStart = kNotFound) := by
  have hfirst := h
  rw [findMention] at hfirst
  cases hfind : (if flags.withMentions = true then m.mention (max mentionSkip matchOffset)
      else none) with
  | none =>
    rw [hfind] at hfirst
    rw [← Except.ok.inj hfirst] at h ⊢
    exact ⟨h, fun _ => .inr rfl⟩
  | some found =>
    rw [hfind] at hfirst
    split_ifs at hfind with hmentions
    obtain ⟨hagain, hignore⟩ := mentionLoop_again hmentions hfind hfirst
    exact ⟨hagain, fun hno => .inl (hignore hno)⟩

@[simp] theorem again_mentionSkip (mention : Mention) :
    (again mention).mentionSkip = mention.mentionSkip := by
  rw [again]
  split <;> rfl

@[simp] theorem again_hasMatch (mention : Mention) :
    (again mention).hasMatch = mention.hasMatch := by
  rw [again]
  split <;> simp_all

/-- A mention that was not chosen is not chosen again. -/
theorem chooseTag_again {s : Scan} {mention : Mention} {tagStart : ℕ} {round : Except Fault Round}
    {mentionSkip : ℕ}
    (hno : mention.hasMatch = false →
      mention.mentionIgnore = true ∨ mention.mentionStart = kNotFound)
    (hhashtag : startOf (if flags.withHashtags = true then m.hashtag s.matchOffset else none)
      trimmedStart ≤ kNotFound)
    (h : chooseTag q m flags text s mention = .ok (.found tagStart round, mentionSkip)) :
    mention.mentionSkip = mentionSkip ∧
      chooseTag q m flags text { s with mentionSkip } (again mention) =
        .ok (.found tagStart round, mentionSkip) := by
  have hskip : mention.mentionSkip = mentionSkip := by
    rw [chooseTag] at h
    dsimp only at h
    split_ifs at h
    all_goals first | exact congrArg Prod.snd (Except.ok.inj h) | skip
    all_goals
      split at h
      · cases h
      · exact congrArg Prod.snd (Except.ok.inj h)
  refine ⟨hskip, ?_⟩
  subst hskip
  cases hmatch : mention.hasMatch with
  | true =>
    rw [again, if_pos hmatch]
    exact h
  | false =>
    have hagain : again mention = ⟨false, kNotFound, kNotFound, mention.mentionSkip, false⟩ :=
      if_neg (by simp [hmatch])
    rw [chooseTag] at h ⊢
    rw [hagain]
    dsimp only at h ⊢
    rw [hmatch] at h
    generalize (if flags.withHashtags = true then m.hashtag s.matchOffset else none) = mHashtag
      at h hhashtag ⊢
    generalize (if flags.withBotCommands = true then m.botCommand s.matchOffset else none) =
      mBotCommand at h ⊢
    generalize (if startOf (m.domainExplicit s.matchOffset) RegExpMatch.capturedStart <
      startOf (m.domain s.matchOffset) RegExpMatch.capturedStart then
        m.domainExplicit s.matchOffset else m.domain s.matchOffset) = chosen at h ⊢
    split at h
    · cases h
    · rename_i hnone
      rw [if_neg hnone, if_neg fun hfirst => absurd hfirst.1 (not_lt.mpr hhashtag)]
      split at h
      · rename_i hfirst
        split at h
        · cases h
        · rename_i hignore
          rcases hno hmatch with hyes | hplace
          · exact absurd hyes hignore
          · exact absurd (hplace ▸ hfirst.1) (not_lt.mpr hhashtag)
      · exact h

/-- The next search from the same place finds the tag again. -/
theorem findTag_again (hm : m.Inside text) (hsize : text.length ≤ kNotFound) {s : Scan}
    {tagStart : ℕ} {round : Except Fault Round} {mentionSkip : ℕ}
    (h : findTag q m flags text s = .ok (.found tagStart round, mentionSkip)) :
    findTag q m flags text { s with mentionSkip } = .ok (.found tagStart round, mentionSkip) := by
  rw [findTag] at h
  obtain ⟨mention, hmention, hchoose⟩ := exists_of_bind_eq_ok h
  obtain ⟨hagain, hno⟩ := findMention_again hmention
  have hhashtag : startOf (if flags.withHashtags = true then m.hashtag s.matchOffset else none)
      trimmedStart ≤ kNotFound := by
    refine startOf_le fun found hfound => ?_
    cases hwith : flags.withHashtags with
    | false => simp [hwith] at hfound
    | true =>
      rw [hwith, if_pos rfl] at hfound
      obtain ⟨-, hlt, hle⟩ := (hm.hashtag _ found hfound).bounds
      exact ((hlt.trans_le hle).trans_le hsize).le
  obtain ⟨rfl, hchosen⟩ := chooseTag_again hno hhashtag hchoose
  rw [findTag]
  dsimp only
  rw [hagain]
  exact hchosen

end Bettergram.Ui.Text.Rich
