import Bettergram.Ui.Text.RichTags
import Mathlib.Data.Prod.Lex

/-! # Rounds of a rich text

A round gets on, or goes back to the command that the loop stands at. It goes
back there for ever when this is the beginning of a link that is not passed, and
a tag is found from there.
-/

namespace Bettergram.Ui.Text.Rich
open Foundation

variable {q : Tables} {m : Matchers} {flags : Flags} {text : QString} {s s' : State}

/-! ## One round -/

/-- The offsets are inside the text. -/
structure Good (text : QString) (s : State) : Prop where
  offset : s.scan.offset ≤ s.scan.matchOffset
  matchOffset : s.scan.matchOffset ≤ text.length
  mentionSkip : s.scan.mentionSkip ≤ text.length
  command : s.commands.commandOffset ≤ text.length

/-- A command that begins a link. -/
def LinkAt (text : QString) (place : ℕ) : Prop :=
  charAt text place = TextCommand ∧ textcmdStartsLink text text.length place = .ok true

/-- The commands stay at `place` in front of the tag. -/
def Stays (text : QString) (tagStart place : ℕ) : Prop :=
  tagStart ≤ place ∨ textSkipCommand text place text.length true = .ok place

/-- The command at the offset is looked for again, and is there. -/
structure AtCommand (text : QString) (s : State) (c : Commands) : Prop where
  before : s.commands.commandOffset ≤ s.scan.offset
  commandOffset : c.commandOffset = s.scan.offset
  inLink : c.inLink = s.commands.commandIsLink
  commandIsLink : c.commandIsLink = true ↔ LinkAt text s.scan.offset

theorem refresh_returns (hs : Good text s) (hlt : s.scan.offset < text.length) :
    Returns (refresh text s) fun c => s.scan.offset ≤ c.commandOffset ∧
      c.commandOffset ≤ text.length ∧
        (c.commandOffset = s.scan.offset → AtCommand text s c) := by
  rw [refresh]
  refine returns_ite (fun hbefore => ?_) fun hnot =>
    returns_pure ⟨by omega, hs.command, fun hsame => absurd hsame (by omega)⟩
  obtain ⟨hfrom, hle⟩ := commandFrom_bounds hlt.le
  refine (nextCommand_returns hlt.le s.commands).imp fun c hc => ?_
  obtain ⟨hoffset, hat⟩ := hc
  refine ⟨hoffset ▸ hfrom, hoffset ▸ hle, fun hsame => ?_⟩
  obtain ⟨hcommand, hin, hstarts⟩ := hat.command (hsame ▸ hlt)
  rw [hsame] at hcommand hstarts
  refine ⟨hbefore, hsame, hin, fun h => ⟨hcommand, h ▸ hstarts⟩, fun h => ?_⟩
  exact Except.ok.inj (hstarts.symm.trans h.2)

/-- What a round that goes on does with the state. -/
inductive GoesOn (q : Tables) (m : Matchers) (flags : Flags) (text : QString) (s s' : State) : Prop
  | forward (offset : s.scan.offset < s'.scan.offset)
  | scans (offset : s'.scan.offset = s.scan.offset)
      (matchOffset : s.scan.matchOffset < s'.scan.matchOffset)
      (commands : s.scan.offset < s'.commands.commandOffset ∨
        s'.commands.inLink = false ∧ AtCommand text s s'.commands)
  | goesBack (tagStart : ℕ) (round : Except Fault Round) (mentionSkip : ℕ)
      (found : findTag q m flags text s.scan = .ok (.found tagStart round, mentionSkip))
      (stays : Stays text tagStart s.scan.offset)
      (scan : s'.scan = ⟨s.scan.offset, s.scan.offset, mentionSkip⟩)
      (inLink : s'.commands.inLink = true) (commands : AtCommand text s s'.commands)

/-- The state that a round leaves. -/
def Outcome.Leaves (P : State → Prop) : Outcome → Prop
  | .stop => True
  | .skip next => P next
  | .link _ _ _ next => P next

theorem round_returns (q : Tables) (flags : Flags) (hm : m.Inside text)
    (hsize : text.length ≤ kNotFound) (hs : Good text s) (hlt : s.scan.offset < text.length) :
    Returns (round q m flags text s)
      (Outcome.Leaves fun s' => Good text s' ∧ GoesOn q m flags text s s') := by
  rw [round]
  refine (refresh_returns hs hlt).bind fun c hc => ?_
  obtain ⟨hfrom, hle, hat⟩ := hc
  obtain ⟨⟨tag, mentionSkip⟩, hfind, hskip, htag⟩ :=
    findTag_returns q flags hm hsize hs.offset hs.mentionSkip
  have hoffset := hs.offset
  rw [hfind]
  refine Returns.bind (P := fun r => r = (tag, mentionSkip)) ⟨_, rfl, rfl⟩ ?_
  rintro _ rfl
  cases tag with
  | nothing => exact returns_pure trivial
  | ignored place =>
    have hbehind : s.scan.matchOffset < place := htag.1
    exact returns_pure ⟨⟨le_rfl, htag.2, hskip, hle⟩, .forward (by simp only; omega)⟩
  | found tagStart round =>
    refine (checkTagStartInCommand_returns tagStart hle (by omega)).bind fun r hpassed => ?_
    obtain ⟨inCommand, c'⟩ := r
    have hforward : c.commandOffset ≤ c'.commandOffset := hpassed.forward
    have hstays : c'.commandOffset = s.scan.offset →
        c' = c ∧ Stays text tagStart s.scan.offset ∧ AtCommand text s c' := by
      intro hsame
      have hcsame : c.commandOffset = s.scan.offset := by omega
      obtain ⟨rfl, hwhy⟩ := hpassed.stays (hsame.trans hcsame.symm)
      rw [hsame] at hwhy
      exact ⟨rfl, hwhy.resolve_left (by omega), hat hsame⟩
    refine returns_ite (fun hinside => returns_pure ?_) fun hnot => ?_
    · refine ⟨⟨le_rfl, hpassed.le, hskip, hpassed.le⟩, ?_⟩
      by_cases hsame : c'.commandOffset = s.scan.offset
      swap
      · exact .forward (by simp only; omega)
      obtain ⟨hcsame, hstaysAt, hcommand⟩ := hstays hsame
      have hnotIn : inCommand = false := by
        by_contra hin
        have hmoved := (hpassed.inside (Bool.eq_true_of_not_eq_false hin)).2
        rw [← hcsame] at hmoved
        exact absurd hmoved (lt_irrefl _)
      rw [hnotIn, Bool.false_or] at hinside
      exact .goesBack tagStart round mentionSkip hfind hstaysAt (by simp only [hsame]) hinside
        hcommand
    · rw [Bool.or_eq_true, not_or, Bool.not_eq_true, Bool.not_eq_true] at hnot
      refine htag.2.bind fun r hr => ?_
      obtain ⟨hgets, hskipOf⟩ := hr
      have hskipLe : skipOf r ≤ text.length := hskipOf ▸ hskip
      cases r with
      | stop => exact returns_pure trivial
      | skip next =>
        obtain ⟨hnext, hnextMatch, hmatch, hnextLe⟩ := hgets
        refine returns_pure ⟨⟨hnextMatch, hnextLe, hskipLe, hpassed.le⟩, ?_⟩
        by_cases hsame : next.offset = s.scan.offset
        swap
        · exact .forward (by simp only; omega)
        refine .scans hsame hmatch ?_
        by_cases hcommand : c'.commandOffset = s.scan.offset
        · exact .inr ⟨hnot.2, (hstays hcommand).2.2⟩
        · exact .inl (by simp only; omega)
      | link lnkType lnkStart lnkLength skip =>
        obtain ⟨hstart, hpos, hmatch, hstop⟩ := hgets
        exact returns_pure ⟨⟨le_rfl, hstop, hskipLe, hpassed.le⟩, .forward (by simp only; omega)⟩


/-! ## Where the loop stays -/

/-- The loop has gone back to the beginning of a link, and goes back there again. -/
structure Stuck (q : Tables) (m : Matchers) (flags : Flags) (text : QString) (s : State) :
    Prop where
  offset : s.scan.offset < text.length
  matchOffset : s.scan.matchOffset = s.scan.offset
  command : s.commands.commandOffset ≤ s.scan.offset
  commandIsLink : s.commands.commandIsLink = true
  link : LinkAt text s.scan.offset
  tag : ∃ tagStart round mentionSkip,
    findTag q m flags text s.scan = .ok (.found tagStart round, mentionSkip) ∧
      Stays text tagStart s.scan.offset

theorem Stuck.round (h : Stuck q m flags text s) (hm : m.Inside text)
    (hsize : text.length ≤ kNotFound) :
    ∃ s', round q m flags text s = .ok (.skip s') ∧ Stuck q m flags text s' := by
  obtain ⟨tagStart, tagRound, mentionSkip, hfind, hstays⟩ := h.tag
  obtain ⟨hcommand, hstarts⟩ := h.link
  have hfrom := commandFrom_self h.offset hcommand
  have hrefresh : refresh text s = .ok ⟨s.scan.offset, true, true⟩ := by
    rw [refresh, if_pos h.command, nextCommand, hfrom, if_pos h.offset, hstarts, h.commandIsLink]
    rfl
  refine ⟨⟨⟨s.scan.offset, s.scan.offset, mentionSkip⟩, ⟨s.scan.offset, true, true⟩⟩, ?_, ?_⟩
  · rw [Rich.round, hrefresh]
    change (findTag q m flags text s.scan >>= _) = _
    rw [hfind]
    change takeTag text (.found tagStart tagRound) mentionSkip ⟨s.scan.offset, true, true⟩ = _
    have hpassed : checkTagStartInCommand text tagStart (text.length + 1)
        ⟨s.scan.offset, true, true⟩ = .ok (false, ⟨s.scan.offset, true, true⟩) :=
      checkTagStartInCommand_stays text.length hstays
    rw [takeTag, hpassed]
    rfl
  · have hagain := findTag_again hm hsize hfind
    rw [h.matchOffset] at hagain
    exact ⟨h.offset, rfl, le_rfl, rfl, h.link, tagStart, tagRound, mentionSkip, hagain, hstays⟩

/-! ## What gets smaller -/

open Classical in
/-- How often the loop may still go back to the command at its offset. -/
noncomputable def rank (text : QString) (s : State) : ℕ :=
  if s.scan.offset < s.commands.commandOffset then 0
  else if s.commands.commandIsLink then
    if s.scan.matchOffset = s.scan.offset ∧ LinkAt text s.scan.offset then 1 else 2
  else if LinkAt text s.scan.offset then 3
  else 0

noncomputable def left (text : QString) (s : State) : ℕ ×ₗ ℕ ×ₗ ℕ :=
  toLex (text.length - s.scan.offset, toLex (rank text s, text.length - s.scan.matchOffset))

theorem GoesOn.rank_le (h : GoesOn q m flags text s s') (hs : s.scan.offset ≤ s.scan.matchOffset)
    (hlt : s.scan.offset < text.length) (hstuck : ¬Stuck q m flags text s)
    (hsame : s'.scan.offset = s.scan.offset) :
    rank text s' < rank text s ∨
      rank text s' ≤ rank text s ∧ s.scan.matchOffset < s'.scan.matchOffset := by
  cases h with
  | forward hforward => omega
  | scans hoffset hmatch hcommands =>
    rcases hcommands with hbehind | ⟨hlink, hat⟩
    · have hzero : rank text s' = 0 := if_pos (hsame ▸ hbehind)
      exact .inr ⟨hzero ▸ Nat.zero_le _, hmatch⟩
    · have hnot : ¬s.scan.offset < s.commands.commandOffset := not_lt.mpr hat.before
      have hnot' : ¬s'.scan.offset < s'.commands.commandOffset := by
        rw [hsame, hat.commandOffset]
        exact lt_irrefl _
      have hfalse : s.commands.commandIsLink = false := hat.inLink.symm.trans hlink
      have hmoved : s'.scan.matchOffset ≠ s.scan.offset := by omega
      rw [rank, rank, if_neg hnot', if_neg hnot, hsame]
      by_cases hlinkAt : LinkAt text s.scan.offset
      · simp [hat.commandIsLink.mpr hlinkAt, hfalse, hlinkAt, hmoved]
      · have hflag := Bool.eq_false_iff.mpr (mt hat.commandIsLink.mp hlinkAt)
        simp [hflag, hfalse, hlinkAt, hmatch]
  | goesBack tagStart round mentionSkip hfound hstays hscan hlink hat =>
    have hnot : ¬s.scan.offset < s.commands.commandOffset := not_lt.mpr hat.before
    have hnot' : ¬s'.scan.offset < s'.commands.commandOffset := by
      rw [hsame, hat.commandOffset]
      exact lt_irrefl _
    have htrue : s.commands.commandIsLink = true := hat.inLink.symm.trans hlink
    have hunsettled : ¬(s.scan.matchOffset = s.scan.offset ∧ LinkAt text s.scan.offset) :=
      fun hsettled => hstuck ⟨hlt, hsettled.1, hat.before, htrue, hsettled.2,
        tagStart, round, mentionSkip, hfound, hstays⟩
    have hmatch : s'.scan.matchOffset = s.scan.offset := by rw [hscan]
    left
    rw [rank, rank, if_neg hnot', if_neg hnot, hsame, hmatch, if_pos htrue, if_neg hunsettled]
    by_cases hlinkAt : LinkAt text s.scan.offset
    · simp [hat.commandIsLink.mpr hlinkAt, hlinkAt]
    · have hflag := Bool.eq_false_iff.mpr (mt hat.commandIsLink.mp hlinkAt)
      simp [hflag, hlinkAt]

theorem GoesOn.left_lt (h : GoesOn q m flags text s s') (hs : Good text s) (hs' : Good text s')
    (hlt : s.scan.offset < text.length) (hstuck : ¬Stuck q m flags text s) :
    left text s' < left text s := by
  have hoffset : s.scan.offset ≤ s'.scan.offset := by
    cases h with
    | forward hforward => exact hforward.le
    | scans hsame => exact hsame.ge
    | goesBack _ _ _ _ _ hscan => rw [hscan]
  have hle := hs'.matchOffset
  rw [left, left, Prod.Lex.toLex_lt_toLex]
  by_cases hsame : s'.scan.offset = s.scan.offset
  · refine .inr ⟨by rw [hsame], ?_⟩
    rw [Prod.Lex.toLex_lt_toLex]
    rcases h.rank_le hs.offset hlt hstuck hsame with hless | ⟨hrank, hmatch⟩
    · exact .inl hless
    · rcases hrank.lt_or_eq with hless | heq
      · exact .inl hless
      · exact .inr ⟨heq, by simp only; omega⟩
  · exact .inl (by simp only; omega)


/-! ## The whole loop -/

theorem turn_next (hm : m.Inside text) (hsize : text.length ≤ kNotFound) {count : ℕ}
    {s t : State × Merge} (hs : Good text s.1) (h : turn q m flags text count s = .next t) :
    s.1.scan.offset < text.length ∧ Good text t.1 ∧ GoesOn q m flags text s.1 t.1 := by
  rw [turn] at h
  split at h
  swap
  · cases h
  rename_i hlt
  obtain ⟨outcome, hround, hleaves⟩ := round_returns q flags hm hsize hs hlt
  rw [hround] at h
  refine ⟨hlt, ?_⟩
  cases outcome with
  | stop => cases h
  | skip next =>
    cases h
    exact hleaves
  | link lnkType lnkStart lnkLength next =>
    cases h
    exact hleaves

theorem turn_done (hm : m.Inside text) (hsize : text.length ≤ kNotFound) {count : ℕ}
    {s : State × Merge} {result : Except Fault Merge} (hs : Good text s.1)
    (h : turn q m flags text count s = .done result) : ∃ merge, result = .ok merge := by
  rw [turn] at h
  split at h
  swap
  · cases h
    exact ⟨_, rfl⟩
  rename_i hlt
  obtain ⟨outcome, hround, -⟩ := round_returns q flags hm hsize hs hlt
  rw [hround] at h
  cases outcome with
  | stop =>
    cases h
    exact ⟨_, rfl⟩
  | skip next => cases h
  | link lnkType lnkStart lnkLength next => cases h

theorem good_start (rich : Bool) (result : TextWithEntities) :
    Good result.text (start rich result).1 := by
  refine ⟨le_rfl, Nat.zero_le _, Nat.zero_le _, ?_⟩
  rw [start]
  dsimp only
  split
  · exact Nat.zero_le _
  · exact le_rfl

/-- The states that the loop comes to from the start. -/
def Visits (q : Tables) (m : Matchers) (flags : Flags) (rich : Bool) (result : TextWithEntities)
    (s : State) : Prop :=
  ∃ merge, Reached (turn q m flags result.text result.entities.length) (start rich result) (s, merge)

section Loop

variable {result : TextWithEntities} {rich : Bool}

theorem good_of_reached (hm : m.Inside result.text) (hsize : result.text.length ≤ kNotFound)
    {count : ℕ} {t : State × Merge}
    (h : Reached (turn q m flags result.text count) (start rich result) t) :
    Good result.text t.1 :=
  reached_invariant (P := fun s => Good result.text s.1)
    (fun _ _ hs hturn => (turn_next hm hsize hs hturn).2.1) (good_start rich result) h

theorem loop_ends_iff (hm : m.Inside result.text) (hsize : result.text.length ≤ kNotFound) :
    Ends (turn q m flags result.text result.entities.length) (start rich result) ↔
      ∀ s, Visits q m flags rich result s → ¬Stuck q m flags result.text s := by
  constructor
  · rintro hends s ⟨merge, hreached⟩ hstuck
    refine not_ends_of_stays (P := fun s => Stuck q m flags result.text s.1) (fun t ht => ?_)
      hreached hstuck hends
    obtain ⟨s', hround, hs'⟩ := ht.round hm hsize
    refine ⟨(s', t.2), ?_, hs'⟩
    rw [turn, if_pos ht.offset, hround]
  · intro hfree
    refine ends_of_less wellFounded_lt (fun s => left result.text s.1) fun t t' hreached hturn => ?_
    have hgood := good_of_reached hm hsize hreached
    obtain ⟨hlt, hgood', hgoes⟩ := turn_next hm hsize hgood hturn
    exact hgoes.left_lt hgood hgood' hlt (hfree t.1 ⟨t.2, hreached⟩)

/-- A run that ends has a result, and no other outcome. -/
theorem parseEntities_ok (hm : m.Inside result.text) (hsize : result.text.length ≤ kNotFound)
    {rounds : ℕ} {r : Except Fault TextWithEntities}
    (h : ParseEntities q m flags rounds rich result = some r) : ∃ parsed, r = .ok parsed := by
  rw [ParseEntities, Option.map_eq_some_iff] at h
  obtain ⟨merge, hloop, rfl⟩ := h
  obtain ⟨merge, rfl⟩ := loop_result (P := fun s => Good result.text s.1)
    (Q := fun r => ∃ merge, r = .ok merge)
    (fun _ _ hs hturn => (turn_next hm hsize hs hturn).2.1)
    (fun _ _ hs hturn => turn_done hm hsize hs hturn) (good_start rich result) hloop
  exact ⟨_, rfl⟩

end Loop

/-- The parser of a rich text ends exactly when it never comes to a link that it is stuck at. It
reads nothing outside the text, and the commands are passed forward. -/
theorem parseEntities_ends_iff (q : Tables) (flags : Flags) {result : TextWithEntities}
    (hm : m.Inside result.text) (hsize : result.text.length ≤ kNotFound) :
    ((∃ rounds parsed, ParseEntities q m flags rounds true result = some (.ok parsed)) ↔
      ∀ s, Visits q m flags true result s → ¬Stuck q m flags result.text s) ∧
    (∀ rounds fault, ParseEntities q m flags rounds true result ≠ some (.error fault)) ∧
    (∀ (tagStart : ℕ) (c : Commands), c.commandOffset ≤ result.text.length →
      Returns (checkTagStartInCommand result.text tagStart (result.text.length + 1) c) fun r =>
        c.commandOffset ≤ r.2.commandOffset) ∧
    ∀ (first last : ℕ) (canLink : Bool), first ≤ last → last ≤ result.text.length →
      Returns (textSkipCommand result.text first last canLink) fun place =>
        place = first ∨ first < place ∧ place ≤ last := by
  refine ⟨?_, fun rounds fault h => ?_, fun tagStart c hle => ?_, fun first last canLink => ?_⟩
  · rw [← loop_ends_iff hm hsize]
    constructor
    · rintro ⟨rounds, parsed, h⟩
      rw [ParseEntities, Option.map_eq_some_iff] at h
      obtain ⟨merge, hloop, -⟩ := h
      exact ⟨rounds, merge, hloop⟩
    · rintro ⟨rounds, merge, hloop⟩
      obtain ⟨r, hparse⟩ : ∃ r, ParseEntities q m flags rounds true result = some r :=
        ⟨_, by rw [ParseEntities, hloop, Option.map_some]⟩
      obtain ⟨parsed, hparsed⟩ := parseEntities_ok hm hsize hparse
      exact ⟨rounds, parsed, hparsed ▸ hparse⟩
  · obtain ⟨parsed, hparsed⟩ := parseEntities_ok hm hsize h
    cases hparsed
  · exact (checkTagStartInCommand_returns tagStart hle (by omega)).imp fun _ h => h.forward
  · exact textSkipCommand_returns canLink


/-! ## Hashtags between commands -/

/-- Matchers that find hashtags only, the ones that are listed. -/
def hashtagsOnly (found : List RegExpMatch) : Matchers where
  domain := fun _ => none
  domainExplicit := fun _ => none
  hashtag := fun offset => found.find? fun hashtag => offset ≤ hashtag.capturedStart
  mention := fun _ => none
  botCommand := fun _ => none
  hashtagExclude := fun _ => false
  mailNameAtEnd := fun _ => none
  toLower := id
  isValidProtocol := fun _ => false
  isValidTopDomain := fun _ => false

theorem hashtagsOnly_inside {found : List RegExpMatch}
    (h : ∀ hashtag ∈ found, trimmedStart hashtag < trimmedEnd hashtag 2 ∧
      hashtag.capturedEnd ≤ text.length) : (hashtagsOnly found).Inside text where
  domain := fun _ _ hno => absurd hno (by simp [hashtagsOnly])
  domainExplicit := fun _ _ hno => absurd hno (by simp [hashtagsOnly])
  hashtag := fun offset hashtag hfound => by
    have hstart := List.find?_some hfound
    obtain ⟨hlt, hle⟩ := h hashtag (List.mem_of_find?_eq_some hfound)
    exact ⟨by simpa using hstart, hlt, hle⟩
  mention := fun _ _ hno => absurd hno (by simp [hashtagsOnly])
  botCommand := fun _ _ hno => absurd hno (by simp [hashtagsOnly])
  mailNameAtEnd := fun _ _ hno => absurd hno (by simp [hashtagsOnly])

def hashtagFlags : Flags := ⟨true, false, false⟩

/-- `#bb` -/
def oneHashtag : TextWithEntities := ⟨[35, 98, 98], []⟩

def oneFound : List RegExpMatch := [⟨0, 3, fun _ => []⟩]

theorem parseEntities_ends_iff_hashtag :
    ¬∃ s, Visits plainTables (hashtagsOnly oneFound) hashtagFlags true oneHashtag s ∧
      Stuck plainTables (hashtagsOnly oneFound) hashtagFlags oneHashtag.text s := by
  rintro ⟨s, hvisits, hstuck⟩
  exact (parseEntities_ends_iff plainTables hashtagFlags (hashtagsOnly_inside (by decide))
    (by decide)).1.mp ⟨2, _, rfl⟩ s hvisits hstuck

/-- Two hashtags, each behind the beginning of a command. -/
def strayCommands : TextWithEntities :=
  ⟨[16, 97, 97, 32, 35, 98, 98, 32, 16, 97, 97, 32, 35, 98, 98], []⟩

def strayFound : List RegExpMatch :=
  [⟨3, 8, fun i => if i = 1 ∨ i = 2 then [32] else []⟩,
    ⟨11, 15, fun i => if i = 1 then [32] else []⟩]

/-- The parser goes back to the second command for ever. -/
theorem parseEntities_stray : (hashtagsOnly strayFound).Inside strayCommands.text ∧
    ¬∃ rounds parsed, ParseEntities plainTables (hashtagsOnly strayFound) hashtagFlags rounds true
      strayCommands = some (.ok parsed) := by
  have hinside : (hashtagsOnly strayFound).Inside strayCommands.text :=
    hashtagsOnly_inside (by decide)
  refine ⟨hinside, ?_⟩
  rintro ⟨rounds, parsed, h⟩
  rw [ParseEntities, Option.map_eq_some_iff] at h
  obtain ⟨merge, hloop, -⟩ := h
  have hfirst : turn plainTables (hashtagsOnly strayFound) hashtagFlags strayCommands.text 0
      (start true strayCommands) = .next (⟨⟨7, 7, 0⟩, ⟨0, false, true⟩⟩,
        ⟨0, 0, [], [⟨.hashtag, 4, 3, []⟩]⟩) := rfl
  have hsecond : turn plainTables (hashtagsOnly strayFound) hashtagFlags strayCommands.text 0
      (⟨⟨7, 7, 0⟩, ⟨0, false, true⟩⟩, ⟨0, 0, [], [⟨.hashtag, 4, 3, []⟩]⟩) =
        .next (⟨⟨8, 8, 0⟩, ⟨8, true, true⟩⟩, ⟨0, 0, [], [⟨.hashtag, 4, 3, []⟩]⟩) := rfl
  refine (loop_ends_iff hinside (by decide)).mp ⟨rounds, merge, hloop⟩ ⟨⟨8, 8, 0⟩, ⟨8, true, true⟩⟩
    ⟨_, .tail (.tail .refl hfirst) hsecond⟩ ?_
  exact ⟨by decide, rfl, le_rfl, rfl, ⟨rfl, rfl⟩, 12, _, 0, rfl, .inr rfl⟩

end Bettergram.Ui.Text.Rich
