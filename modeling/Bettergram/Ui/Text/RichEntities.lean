import Bettergram.Foundation.Loops
import Bettergram.Ui.Text.ParseEntities
import Bettergram.Foundation.FlatSet
import Mathlib.Data.List.GetD
import Mathlib.Order.Basic

/-! # Detection of links in a rich text

A rich text has commands, which links are not looked for in, and parts that are
links already. Every character is read at a checked place, and each loop takes a
bounded number of rounds.
-/

namespace Bettergram.Ui.Text
open Foundation

def TextCommandLinkIndex : QChar := 0x09
def TextCommandLinkText : QChar := 0x0A
def TextCommandSkipBlock : QChar := 0x0D
def TextCommandLangTag : QChar := 0x20

namespace Rich

/-- A character outside the text and its terminating zero, a domain that was not found, or a loop
that takes more rounds than it is given. -/
inductive Fault where
  | outside
  | notFound
  | rounds
deriving DecidableEq, Repr

def readChar (text : QString) (place : ℤ) : Except Fault QChar :=
  if 0 ≤ place ∧ place ≤ text.length then .ok (charAt text place.toNat) else .error .outside

section Commands

variable (text : QString)

/-- The place behind what the command has with it; `none` for no command. -/
def skipArgument (cmd : QChar) (result : ℕ) (canLink : Bool) : Except Fault (Option ℕ) :=
  if cmd = TextCommandLinkIndex then do
    let index ← readChar text result
    return if 0x7FFF < index then none else some (result + 1)
  else if cmd = TextCommandLinkText then do
    let len ← readChar text result
    return if 4096 ≤ len ∨ canLink = false then none else some (result + (len + 1))
  else if cmd = TextCommandSkipBlock then return some (result + 2)
  else if cmd = TextCommandLangTag then return some (result + 1)
  else return some result

/-- `first` itself when no whole command begins there. -/
def textSkipCommand (first last : ℕ) (canLink : Bool) : Except Fault ℕ := do
  let command ← readChar text first
  if command ≠ TextCommand ∨ last ≤ first + 1 then return first
  let cmd ← readChar text (first + 1 : ℕ)
  if last ≤ first + 2 then return first
  match ← skipArgument text cmd (first + 2) canLink with
  | none => return first
  | some result =>
    if result < last then
      let closing ← readChar text result
      return if closing = TextCommand then result + 1 else first
    else return first

def textcmdStartsLink (len commandOffset : ℕ) : Except Fault Bool := do
  if commandOffset + 2 < len then
    let cmd ← readChar text (commandOffset + 1 : ℕ)
    if cmd = TextCommandLinkIndex then
      let index ← readChar text (commandOffset + 2 : ℕ)
      return index ≠ 0
    else return cmd ≠ TextCommandLinkText
  else return false

structure Commands where
  commandOffset : ℕ
  inLink : Bool
  commandIsLink : Bool
deriving DecidableEq, Repr

/-- The place of the next command from `place` on, or the end of the text. -/
def commandFrom (place : ℕ) : ℕ :=
  place + ((text.drop place).takeWhile fun ch => decide (ch ≠ TextCommand)).length

/-- The loop that looks for the next command. -/
def nextCommand (place : ℕ) (c : Commands) : Except Fault Commands :=
  let commandOffset := commandFrom text place
  if commandOffset < text.length then do
    let commandIsLink ← textcmdStartsLink text text.length commandOffset
    return ⟨commandOffset, c.commandIsLink, commandIsLink⟩
  else return { c with commandOffset }

/-- At the end of the text the last command counts too. -/
def closeAtEnd (c : Commands) : Commands :=
  if text.length ≤ c.commandOffset then
    { c with inLink := c.commandIsLink, commandIsLink := false }
  else c

def checkTagStartInCommand (tagStart : ℕ) : ℕ → Commands → Except Fault (Bool × Commands)
  | 0, _ => .error .rounds
  | rounds + 1, c =>
    if c.commandOffset < text.length ∧ c.commandOffset < tagStart then do
      let commandEnd ← textSkipCommand text c.commandOffset text.length true
      if c.commandOffset < commandEnd then
        if tagStart < commandEnd then return (true, { c with commandOffset := commandEnd })
        else do
          let next ← nextCommand text commandEnd c
          checkTagStartInCommand tagStart rounds (closeAtEnd text next)
      else return (false, c)
    else return (false, c)

end Commands

section Expressions

variable (q : Tables) (m : Matchers) (flags : Flags) (text : QString)

/-! ## What is found -/

/-- The last character of a mention, for one that begins with a letter. -/
def readLast (first : QChar) (mentionEnd : ℕ) : Except Fault QChar :=
  if q.isLetter first then readChar text ((mentionEnd : ℤ) - 1) else .ok 0

def mentionLoop (matchOffset : ℕ) : ℕ → RegExpMatch → ℕ → Except Fault Mention
  | 0, _, _ => .error .rounds
  | rounds + 1, found, mentionSkip => do
    let mentionStart := trimmedStart found
    let mentionEnd := trimmedEnd found 2
    let first ← readChar text (mentionStart + 1 : ℕ)
    let last ← readLast q text first mentionEnd
    if !q.isLetter first || !q.isLetterOrNumber last then
      match m.mention (max mentionEnd matchOffset) with
      | some next => mentionLoop matchOffset rounds next mentionEnd
      | none => return ⟨false, mentionStart, mentionEnd, mentionEnd, true⟩
    else return ⟨true, mentionStart, mentionEnd, mentionSkip, false⟩

def findMention (mentionSkip matchOffset : ℕ) : Except Fault Mention :=
  match (if flags.withMentions then m.mention (max mentionSkip matchOffset) else none) with
  | some found => mentionLoop q m text matchOffset (text.length + 1) found mentionSkip
  | none => return ⟨false, kNotFound, kNotFound, mentionSkip, false⟩

def findLinkEnd : ℕ → ℕ → List ℕ → Except Fault ℕ
  | 0, _, _ => .error .rounds
  | rounds + 1, p, parenth =>
    if p < text.length then do
      let ch ← readChar text p
      if chIsLinkEnd q ch then return p
      else do
        let almost := chIsAlmostLinkEnd ch
        let p' := if almost then endTest text p else p
        if almost && decide (text.length ≤ p') then return p
        else do
          let ch ← readChar text p'
          if almost && chIsLinkEnd q ch then return p
          else if isOpening ch then findLinkEnd rounds (p' + 1) (p' :: parenth)
          else if isClosing ch then
            match parenth with
            | [] => return p'
            | opening :: rest => do
              let before ← readChar text opening
              if fits ch before then findLinkEnd rounds (p' + 1) rest else return opening
          else findLinkEnd rounds (p' + 1) parenth
    else return p

def findMailStart (offset domainStart : ℕ) (protocol : QString) : Except Fault (Option ℕ) :=
  if protocol = [] ∧ offset + 1 < domainStart then do
    let before ← readChar text ((domainStart : ℤ) - 1)
    return if before = 0x40 then
      (m.mailNameAtEnd (mid text offset (domainStart - offset - 1))).map fun start => offset + start
    else none
  else return none

def domainRound (s : Scan) (mentionSkip : ℕ) (mDomain : RegExpMatch) : Except Fault Round := do
  let protocol := m.toLower (mDomain.captured 1)
  let topDomain := m.toLower (mDomain.captured 3)
  let isProtocolValid := protocol = [] || m.isValidProtocol protocol
  let isTopDomainValid := protocol ≠ [] || m.isValidTopDomain topDomain
  match ← findMailStart m text s.offset mDomain.capturedStart protocol with
  | some mailStart => return .link .email mailStart (mDomain.capturedEnd - mailStart) mentionSkip
  | none =>
    if !isProtocolValid || !isTopDomainValid then
      return .skip { s with matchOffset := mDomain.capturedEnd, mentionSkip }
    else do
      let p ← findLinkEnd q text (text.length + 1) mDomain.capturedEnd []
      if mDomain.capturedEnd < p then
        let behind ← readChar text mDomain.capturedEnd
        return if behind ≠ 0x2F ∧ behind ≠ 0x3F then
          .skip { s with matchOffset := mDomain.capturedEnd, mentionSkip }
        else .link .url mDomain.capturedStart (p - mDomain.capturedStart) mentionSkip
      else return .link .url mDomain.capturedStart (p - mDomain.capturedStart) mentionSkip

/-- What comes first: nothing, a mention or a hashtag that is ignored up to its end, or a tag with
what is done when it is not in a command or a link. -/
inductive Tag where
  | nothing
  | ignored (place : ℕ)
  | found (tagStart : ℕ) (round : Except Fault Round)

/-- The choice between the matches, with `mentionSkip`. -/
def chooseTag (s : Scan) (mention : Mention) : Except Fault (Tag × ℕ) :=
  let mDomain := m.domain s.matchOffset
  let mExplicitDomain := m.domainExplicit s.matchOffset
  let mHashtag := if flags.withHashtags then m.hashtag s.matchOffset else none
  let mBotCommand := if flags.withBotCommands then m.botCommand s.matchOffset else none
  if mDomain.isNone && mExplicitDomain.isNone && mHashtag.isNone && !mention.hasMatch &&
      mBotCommand.isNone then return (.nothing, mention.mentionSkip)
  else
    let explicit := startOf mExplicitDomain RegExpMatch.capturedStart <
      startOf mDomain RegExpMatch.capturedStart
    let mDomain := if explicit then mExplicitDomain else mDomain
    let domainStart := startOf mDomain RegExpMatch.capturedStart
    let hashtagStart := startOf mHashtag trimmedStart
    let hashtagEnd := startOf mHashtag fun found => trimmedEnd found 2
    let botCommandStart := startOf mBotCommand trimmedStart
    let botCommandEnd := startOf mBotCommand fun found => trimmedEnd found 3
    if mention.mentionStart < hashtagStart ∧ mention.mentionStart < domainStart ∧
        mention.mentionStart < botCommandStart then
      if mention.mentionIgnore then return (.ignored mention.mentionEnd, mention.mentionSkip)
      else return (.found mention.mentionStart (pure (.link .mention mention.mentionStart
        (mention.mentionEnd - mention.mentionStart) mention.mentionSkip)), mention.mentionSkip)
    else if hashtagStart < domainStart ∧ hashtagStart < botCommandStart then
      if m.hashtagExclude (mid text (hashtagStart + 1) (hashtagEnd - hashtagStart - 1)) then
        return (.ignored hashtagEnd, mention.mentionSkip)
      else return (.found hashtagStart (pure (.link .hashtag hashtagStart
        (hashtagEnd - hashtagStart) mention.mentionSkip)), mention.mentionSkip)
    else if botCommandStart < domainStart then
      return (.found botCommandStart (pure (.link .botCommand botCommandStart
        (botCommandEnd - botCommandStart) mention.mentionSkip)), mention.mentionSkip)
    else
      match mDomain with
      | none => .error .notFound
      | some found => return (.found domainStart
          (domainRound q m text s mention.mentionSkip found), mention.mentionSkip)

def findTag (s : Scan) : Except Fault (Tag × ℕ) := do
  let mention ← findMention q m flags text s.mentionSkip s.matchOffset
  chooseTag q m flags text s mention

/-! ## The loop -/

structure State where
  scan : Scan
  commands : Commands
deriving DecidableEq, Repr

inductive Outcome where
  | stop
  | skip (next : State)
  | link (lnkType : EntityInTextType) (lnkStart lnkLength : ℕ) (next : State)

/-- The command is looked for again when the loop has come to it. -/
def refresh (s : State) : Except Fault Commands :=
  if s.commands.commandOffset ≤ s.scan.offset then nextCommand text s.scan.offset s.commands
  else return s.commands

/-- What is done with a tag: in a command or a link it is passed with the command. -/
def takeTag (tag : Tag) (mentionSkip : ℕ) (c : Commands) : Except Fault Outcome :=
  match tag with
  | .nothing => return .stop
  | .ignored place => return .skip ⟨⟨place, place, mentionSkip⟩, c⟩
  | .found tagStart round => do
    let (inCommand, c) ← checkTagStartInCommand text tagStart (text.length + 1) c
    if inCommand || c.inLink then
      return .skip ⟨⟨c.commandOffset, c.commandOffset, mentionSkip⟩, c⟩
    else
      match ← round with
      | .stop => return .stop
      | .skip next => return .skip ⟨next, c⟩
      | .link lnkType lnkStart lnkLength mentionSkip =>
        return .link lnkType lnkStart lnkLength
          ⟨⟨lnkStart + lnkLength, lnkStart + lnkLength, mentionSkip⟩, c⟩

def round (s : State) : Except Fault Outcome := do
  let c ← refresh text s
  let (tag, mentionSkip) ← findTag q m flags text s.scan
  takeTag text tag mentionSkip c

def turn (existingEntitiesCount : ℕ) (s : State × Merge) :
    Turn (State × Merge) (Except Fault Merge) :=
  if s.1.scan.offset < text.length then
    match round q m flags text s.1 with
    | .error fault => .done (.error fault)
    | .ok .stop => .done (.ok s.2)
    | .ok (.skip next) => .next (next, s.2)
    | .ok (.link lnkType lnkStart lnkLength next) =>
      .next (next, addLink existingEntitiesCount s.2 (linkEntity lnkType lnkStart lnkLength))
  else .done (.ok s.2)

/-- Where the loop begins. -/
def start (rich : Bool) (result : TextWithEntities) : State × Merge :=
  (⟨⟨0, 0, 0⟩, ⟨if rich then 0 else result.text.length, false, false⟩⟩,
    ⟨0, 0, [], result.entities⟩)

/-- `none` when the rounds are not enough. -/
def ParseEntities (rounds : ℕ) (rich : Bool) (result : TextWithEntities) :
    Option (Except Fault TextWithEntities) :=
  (loop (turn q m flags result.text result.entities.length) rounds (start rich result)).map
    fun merge => merge.map fun s =>
      { result with entities := merged result.entities.length s }

end Expressions

end Rich

end Bettergram.Ui.Text

/-! ## Commands of a rich text

A command is skipped as a whole or not at all, and the place of the next command
only moves forward.
-/

namespace Bettergram.Ui.Text.Rich
open Foundation

variable {text : QString} {c : Commands}

theorem readChar_of {place : ℕ} (h : place ≤ text.length) :
    readChar text place = .ok (charAt text place) := by
  rw [readChar, if_pos ⟨Int.natCast_nonneg place, Int.ofNat_le.mpr h⟩, Int.toNat_natCast]

theorem readChar_returns {place : ℕ} (h : place ≤ text.length) :
    Returns (readChar text place) fun ch => ch = charAt text place :=
  ⟨_, readChar_of h, rfl⟩

/-! ## Skipping a command -/

theorem skipArgument_returns (cmd : QChar) {result : ℕ} (canLink : Bool)
    (h : result ≤ text.length) :
    Returns (skipArgument text cmd result canLink) fun skipped =>
      ∀ place, skipped = some place → result ≤ place := by
  rw [skipArgument]
  refine returns_ite (fun _ => ?_) fun _ => returns_ite (fun _ => ?_) fun _ =>
    returns_ite (fun _ => ?_) fun _ => returns_ite (fun _ => ?_) fun _ => ?_
  · refine (readChar_returns h).bind fun index _ => returns_pure fun place hplace => ?_
    split at hplace
    · exact absurd hplace (by simp)
    · rw [← Option.some.inj hplace]
      omega
  · refine (readChar_returns h).bind fun len _ => returns_pure fun place hplace => ?_
    split at hplace
    · exact absurd hplace (by simp)
    · rw [← Option.some.inj hplace]
      omega
  all_goals
    refine returns_pure fun place hplace => ?_
    have hsome := Option.some.inj hplace
    omega

/-- The place itself, or one behind it inside the text. -/
theorem textSkipCommand_returns {first last : ℕ} (canLink : Bool) (hfirst : first ≤ last)
    (hlast : last ≤ text.length) :
    Returns (textSkipCommand text first last canLink) fun place =>
      place = first ∨ first < place ∧ place ≤ last := by
  rw [textSkipCommand]
  refine (readChar_returns (Nat.le_trans hfirst hlast)).bind fun command _ =>
    returns_ite (fun _ => returns_pure (.inl rfl)) fun hcommand => ?_
  rw [not_or, not_le] at hcommand
  refine (readChar_returns (by omega)).bind fun cmd _ =>
    returns_ite (fun _ => returns_pure (.inl rfl)) fun hcmd => ?_
  refine (skipArgument_returns cmd canLink (by omega)).bind fun skipped hskipped => ?_
  cases skipped with
  | none => exact returns_pure (.inl rfl)
  | some result =>
    have hresult := hskipped result rfl
    refine returns_ite (fun hlt => ?_) fun _ => returns_pure (.inl rfl)
    refine (readChar_returns (by omega)).bind fun closing _ => returns_pure ?_
    split
    · exact .inr ⟨by omega, by omega⟩
    · exact .inl rfl

/-! ## The next command -/

theorem textcmdStartsLink_returns (text : QString) (commandOffset : ℕ) :
    Returns (textcmdStartsLink text text.length commandOffset) fun _ => True := by
  rw [textcmdStartsLink]
  refine returns_ite (fun hlt => ?_) fun _ => returns_pure trivial
  refine (readChar_returns (by omega)).bind fun cmd _ => returns_ite (fun _ => ?_) fun _ =>
    returns_pure trivial
  exact (readChar_returns (by omega)).bind fun _ _ => returns_pure trivial

theorem commandFrom_bounds {place : ℕ} (h : place ≤ text.length) :
    place ≤ commandFrom text place ∧ commandFrom text place ≤ text.length := by
  have hle := (List.takeWhile_prefix (l := text.drop place)
    fun ch => decide (ch ≠ TextCommand)).length_le
  rw [List.length_drop] at hle
  rw [commandFrom]
  omega

theorem charAt_commandFrom {place : ℕ} (h : commandFrom text place < text.length) :
    charAt text (commandFrom text place) = TextCommand := by
  have hdrop : text.drop (commandFrom text place) =
      (text.drop place).dropWhile fun ch => decide (ch ≠ TextCommand) := by
    rw [← drop_lowerBound, List.drop_drop]
    rfl
  have hcons : text.drop (commandFrom text place) =
      text[commandFrom text place] :: text.drop (commandFrom text place + 1) :=
    List.drop_eq_getElem_cons h
  have hhead := List.head?_dropWhile_not (fun ch => decide (ch ≠ TextCommand)) (text.drop place)
  rw [← hdrop, hcons] at hhead
  rw [charAt, List.getD_eq_getElem _ _ h]
  simpa [List.getElem?_eq_getElem h] using hhead

theorem commandFrom_self {place : ℕ} (h : place < text.length)
    (hcommand : charAt text place = TextCommand) : commandFrom text place = place := by
  have hdrop : text.drop place = text[place] :: text.drop (place + 1) := List.drop_eq_getElem_cons h
  have hat : text[place] = TextCommand := by
    rw [← hcommand, charAt, List.getD_eq_getElem _ _ h]
  rw [commandFrom, hdrop, List.takeWhile_cons_of_neg (by simp [hat])]
  rfl

/-- What is known of the command at a place that was looked for. -/
structure At (text : QString) (c c' : Commands) : Prop where
  le : c'.commandOffset ≤ text.length
  command : c'.commandOffset < text.length → charAt text c'.commandOffset = TextCommand ∧
    c'.inLink = c.commandIsLink ∧
    textcmdStartsLink text text.length c'.commandOffset = .ok c'.commandIsLink

theorem nextCommand_returns {place : ℕ} (h : place ≤ text.length) (c : Commands) :
    Returns (nextCommand text place c) fun c' =>
      c'.commandOffset = commandFrom text place ∧ At text c c' := by
  obtain ⟨-, hle⟩ := commandFrom_bounds h
  rw [nextCommand]
  refine returns_ite (fun hlt => ?_) fun hnot => ?_
  · obtain ⟨commandIsLink, hstarts, -⟩ := textcmdStartsLink_returns text (commandFrom text place)
    rw [hstarts]
    exact ⟨_, rfl, rfl, hle, fun _ => ⟨charAt_commandFrom hlt, rfl, hstarts⟩⟩
  · exact returns_pure ⟨rfl, hle, fun hlt => absurd hlt hnot⟩

/-! ## The commands in front of a tag -/

/-- What the commands in front of a tag come to: they move forward, behind the tag when it is in
one, and stay at one that is not whole or not in front of the tag. -/
structure Passed (text : QString) (tagStart : ℕ) (c : Commands) (inCommand : Bool)
    (c' : Commands) : Prop where
  forward : c.commandOffset ≤ c'.commandOffset
  le : c'.commandOffset ≤ text.length
  inside : inCommand = true → tagStart < c'.commandOffset ∧ c.commandOffset < c'.commandOffset
  stays : c'.commandOffset = c.commandOffset → c' = c ∧ (text.length ≤ c.commandOffset ∨
    tagStart ≤ c.commandOffset ∨
    textSkipCommand text c.commandOffset text.length true = .ok c.commandOffset)

@[simp] theorem closeAtEnd_commandOffset (text : QString) (c : Commands) :
    (closeAtEnd text c).commandOffset = c.commandOffset := by
  rw [closeAtEnd]
  split <;> rfl

theorem checkTagStartInCommand_returns (tagStart : ℕ) {rounds : ℕ}
    (hle : c.commandOffset ≤ text.length) (hrounds : text.length < rounds + c.commandOffset) :
    Returns (checkTagStartInCommand text tagStart rounds c) fun r =>
      Passed text tagStart c r.1 r.2 := by
  induction rounds generalizing c with
  | zero => omega
  | succ rounds ih =>
    rw [checkTagStartInCommand]
    refine returns_ite (fun hfront => ?_) fun hnot => returns_pure
      ⟨le_rfl, hle, fun h => absurd h (by simp), fun _ => ⟨rfl, ?_⟩⟩
    swap
    · rw [not_and_or, not_lt, not_lt] at hnot
      exact hnot.imp id .inl
    obtain ⟨commandEnd, hskip, hend⟩ := textSkipCommand_returns true hle le_rfl
    rw [hskip]
    refine returns_ite (fun hbehind => ?_) fun hnot => returns_pure
      ⟨le_rfl, hle, fun h => absurd h (by simp), fun _ => ⟨rfl, .inr (.inr ?_)⟩⟩
    swap
    · have hsame : commandEnd = c.commandOffset := by omega
      rw [hskip, hsame]
    have hendle : commandEnd ≤ text.length := by omega
    refine returns_ite (fun htag => returns_pure ⟨hbehind.le, hendle, fun _ => ⟨htag, hbehind⟩,
      fun hsame => absurd hsame hbehind.ne'⟩) fun _ => ?_
    refine (nextCommand_returns hendle c).bind fun next hnext => ?_
    obtain ⟨hfrom, -⟩ := commandFrom_bounds hendle
    have hoffset : (closeAtEnd text next).commandOffset = commandFrom text commandEnd := by
      rw [closeAtEnd_commandOffset, hnext.1]
    have hnextle := hnext.2.le
    refine (ih (c := closeAtEnd text next) (by simpa using hnextle) (by omega)).imp
      fun r hr => ?_
    have hforward := hr.forward
    exact ⟨by omega, hr.le, fun h => ⟨(hr.inside h).1, by omega⟩, fun hsame => by omega⟩

/-- A command that is not whole, or not in front of the tag, is not passed. -/
theorem checkTagStartInCommand_stays {tagStart : ℕ} (rounds : ℕ)
    (h : tagStart ≤ c.commandOffset ∨
      textSkipCommand text c.commandOffset text.length true = .ok c.commandOffset) :
    checkTagStartInCommand text tagStart (rounds + 1) c = .ok (false, c) := by
  rw [checkTagStartInCommand]
  split
  · rename_i hfront
    rcases h with h | h
    · exact absurd hfront.2 (not_lt.mpr h)
    · rw [h]
      exact if_neg (lt_irrefl _)
  · rfl

end Bettergram.Ui.Text.Rich
