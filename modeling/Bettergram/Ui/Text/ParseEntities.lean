import Bettergram.Ui.Text.TextEntity

/-! # Detection of links

The links of a text are looked for from left to right, each behind the one before
it, and are to be added to the entities that are already there. The regular
expressions are parameters; the text has no commands (`rich` is false, and
`commandOffset` is the length of the text throughout).
-/

namespace Bettergram.Ui.Text

def kNotFound : ℕ := 2147483647

/-- A match of a regular expression with the texts it captured. -/
structure RegExpMatch where
  capturedStart : ℕ
  capturedEnd : ℕ
  captured : ℕ → QString

/-- What the expressions find in the text from an offset on, and in pieces of it. -/
structure Matchers where
  domain : ℕ → Option RegExpMatch
  domainExplicit : ℕ → Option RegExpMatch
  hashtag : ℕ → Option RegExpMatch
  mention : ℕ → Option RegExpMatch
  botCommand : ℕ → Option RegExpMatch
  hashtagExclude : QString → Bool
  mailNameAtEnd : QString → Option ℕ
  toLower : QString → QString
  isValidProtocol : QString → Bool
  isValidTopDomain : QString → Bool

structure Flags where
  withHashtags : Bool
  withMentions : Bool
  withBotCommands : Bool

def mid (text : QString) (position length : ℕ) : QString := (text.drop position).take length

/-- The start and end of a match without the neighbours it captured. -/
def trimmedStart (m : RegExpMatch) : ℕ :=
  if m.captured 1 ≠ [] then m.capturedStart + 1 else m.capturedStart

def trimmedEnd (m : RegExpMatch) (last : ℕ) : ℕ :=
  if m.captured last ≠ [] then m.capturedEnd - 1 else m.capturedEnd

section Expressions

variable (q : Tables) (m : Matchers) (flags : Flags) (text : QString)

/-! ## Mentions -/

structure Mention where
  hasMatch : Bool
  mentionStart : ℕ
  mentionEnd : ℕ
  mentionSkip : ℕ
  mentionIgnore : Bool

/-- Goes on to the first match that has a letter at its start and a letter or a number at
its end. -/
def mentionLoop (matchOffset : ℕ) : ℕ → RegExpMatch → ℕ → Option Mention
  | 0, _, _ => none
  | fuel + 1, found, mentionSkip =>
    let mentionStart := trimmedStart found
    let mentionEnd := trimmedEnd found 2
    if !q.isLetter (charAt text (mentionStart + 1)) ||
        !q.isLetterOrNumber (charAt text (mentionEnd - 1)) then
      match m.mention (max mentionEnd matchOffset) with
      | some next => mentionLoop matchOffset fuel next mentionEnd
      | none => some ⟨false, mentionStart, mentionEnd, mentionEnd, true⟩
    else some ⟨true, mentionStart, mentionEnd, mentionSkip, false⟩

def findMention (mentionSkip matchOffset : ℕ) : Option Mention :=
  match (if flags.withMentions then m.mention (max mentionSkip matchOffset) else none) with
  | some found => mentionLoop q m text matchOffset (text.length + 1) found mentionSkip
  | none => some ⟨false, kNotFound, kNotFound, mentionSkip, false⟩

/-! ## Domains -/

def isOpening (ch : QChar) : Bool := ch ∈ [0x28, 0x5B, 0x7B, 0x3C]
def isClosing (ch : QChar) : Bool := ch ∈ [0x29, 0x5D, 0x7D, 0x3E]

/-- `)`, `]`, `}` or `>` with its own opening one. -/
def fits (ch opening : QChar) : Bool :=
  (ch ≠ 0x29 || opening = 0x28) && (ch ≠ 0x5D || opening = 0x5B) &&
    (ch ≠ 0x7D || opening = 0x7B) && (ch ≠ 0x3E || opening = 0x3C)

/-- The place behind `p` and the characters after it that almost end a link. -/
def endTest (p : ℕ) : ℕ := p + 1 + ((text.drop (p + 1)).takeWhile chIsAlmostLinkEnd).length

/-- Where the link that began before `p` ends; `parenth` are the open brackets. -/
def findLinkEnd (p : ℕ) (parenth : List ℕ) : ℕ :=
  if h : p < text.length then
    if chIsLinkEnd q (charAt text p) then p
    else
      let almost := chIsAlmostLinkEnd (charAt text p)
      if almost && (text.length ≤ endTest text p ||
          chIsLinkEnd q (charAt text (endTest text p))) then p
      else
        let p' := if almost then endTest text p else p
        let ch := charAt text p'
        if isOpening ch then findLinkEnd (p' + 1) (p' :: parenth)
        else if isClosing ch then
          match parenth with
          | [] => p'
          | opening :: rest =>
            if fits ch (charAt text opening) then findLinkEnd (p' + 1) rest else opening
        else findLinkEnd (p' + 1) parenth
  else p
termination_by text.length - p
decreasing_by all_goals (simp only [endTest]; split <;> omega)

/-! ## Links -/

/-- Where the loop stands. -/
structure Scan where
  offset : ℕ
  matchOffset : ℕ
  mentionSkip : ℕ
  deriving DecidableEq, Repr

/-- What one round of the loop comes to. -/
inductive Round
  | stop
  | skip (next : Scan)
  | link (lnkType : EntityInTextType) (lnkStart lnkLength mentionSkip : ℕ)

/-- The email address before the domain that starts at `domainStart`, if there is one. -/
def findMailStart (offset domainStart : ℕ) (protocol : QString) : Option ℕ :=
  if protocol = [] ∧ offset + 1 < domainStart ∧ charAt text (domainStart - 1) = 0x40 then
    (m.mailNameAtEnd (mid text offset (domainStart - offset - 1))).map fun start => offset + start
  else none

def domainRound (s : Scan) (mentionSkip : ℕ) (mDomain : RegExpMatch) : Round :=
  let protocol := m.toLower (mDomain.captured 1)
  let topDomain := m.toLower (mDomain.captured 3)
  let isProtocolValid := protocol = [] || m.isValidProtocol protocol
  let isTopDomainValid := protocol ≠ [] || m.isValidTopDomain topDomain
  match findMailStart m text s.offset mDomain.capturedStart protocol with
  | some mailStart => .link .email mailStart (mDomain.capturedEnd - mailStart) mentionSkip
  | none =>
    if !isProtocolValid || !isTopDomainValid then
      .skip { s with matchOffset := mDomain.capturedEnd, mentionSkip }
    else
      let p := findLinkEnd q text mDomain.capturedEnd []
      if mDomain.capturedEnd < p ∧ charAt text mDomain.capturedEnd ≠ 0x2F ∧
          charAt text mDomain.capturedEnd ≠ 0x3F then
        .skip { s with matchOffset := mDomain.capturedEnd, mentionSkip }
      else .link .url mDomain.capturedStart (p - mDomain.capturedStart) mentionSkip

def startOf (found : Option RegExpMatch) (start : RegExpMatch → ℕ) : ℕ :=
  (found.map start).getD kNotFound

/-- One round of the loop, before the entities are looked at; `none` stands for a loop over
the mentions that does not end, and for a use of a domain that was not found. -/
def findLink (s : Scan) : Option Round :=
  let mDomain := m.domain s.matchOffset
  let mExplicitDomain := m.domainExplicit s.matchOffset
  let mHashtag := if flags.withHashtags then m.hashtag s.matchOffset else none
  let mBotCommand := if flags.withBotCommands then m.botCommand s.matchOffset else none
  (findMention q m flags text s.mentionSkip s.matchOffset).bind fun mention =>
    if mDomain.isNone && mExplicitDomain.isNone && mHashtag.isNone && !mention.hasMatch &&
        mBotCommand.isNone then some .stop
    else
      let explicit := startOf mExplicitDomain RegExpMatch.capturedStart <
        startOf mDomain RegExpMatch.capturedStart
      let mDomain := if explicit then mExplicitDomain else mDomain
      let domainStart := startOf mDomain RegExpMatch.capturedStart
      let hashtagStart := startOf mHashtag trimmedStart
      let hashtagEnd := startOf mHashtag fun found => trimmedEnd found 2
      let botCommandStart := startOf mBotCommand trimmedStart
      let botCommandEnd := startOf mBotCommand fun found => trimmedEnd found 3
      if mention.mentionStart < hashtagStart ∧ mention.mentionStart < domainStart ∧
          mention.mentionStart < botCommandStart then
        if mention.mentionIgnore then
          some (.skip ⟨mention.mentionEnd, mention.mentionEnd, mention.mentionSkip⟩)
        else some (.link .mention mention.mentionStart (mention.mentionEnd - mention.mentionStart)
          mention.mentionSkip)
      else if hashtagStart < domainStart ∧ hashtagStart < botCommandStart then
        if m.hashtagExclude (mid text (hashtagStart + 1) (hashtagEnd - hashtagStart - 1)) then
          some (.skip ⟨hashtagEnd, hashtagEnd, mention.mentionSkip⟩)
        else some (.link .hashtag hashtagStart (hashtagEnd - hashtagStart) mention.mentionSkip)
      else if botCommandStart < domainStart then
        some (.link .botCommand botCommandStart (botCommandEnd - botCommandStart)
          mention.mentionSkip)
      else
        mDomain.map fun found => domainRound q m text s mention.mentionSkip found

end Expressions

section Entities

/-! ## Merging with the existing entities -/

structure Merge where
  existingEntityIndex : ℕ
  existingEntityEnd : ℤ
  newEntities : List EntityInText
  /-- `result.entities` -/
  entities : List EntityInText
  deriving DecidableEq, Repr

/-- The existing entities that start no later than the link go to the new ones; a link
behind them is put to the result. -/
def addLink (existingEntitiesCount : ℕ) (s : Merge) (link : EntityInText) : Merge :=
  let before := ((s.entities.take existingEntitiesCount).drop s.existingEntityIndex).takeWhile
    fun entity => entity.offset ≤ link.offset
  let existingEntityEnd :=
    before.foldl (fun stop entity => max stop entity.stop) s.existingEntityEnd
  { existingEntityIndex := s.existingEntityIndex + before.length
    existingEntityEnd
    newEntities := s.newEntities ++ before
    entities := if existingEntityEnd ≤ link.offset then s.entities ++ [link] else s.entities }

/-- The end of the function. -/
def merged (existingEntitiesCount : ℕ) (s : Merge) : List EntityInText :=
  if s.newEntities ≠ [] then
    s.newEntities ++ (s.entities.take existingEntitiesCount).drop s.existingEntityIndex
  else s.entities

def linkEntity (lnkType : EntityInTextType) (lnkStart lnkLength : ℕ) : EntityInText :=
  ⟨lnkType, lnkStart, lnkLength, []⟩

variable (q : Tables) (m : Matchers) (flags : Flags) (text : QString)

def parseLoop (existingEntitiesCount : ℕ) : ℕ → Scan → Merge → Option Merge
  | 0, _, _ => none
  | fuel + 1, s, merge =>
    if s.offset < text.length then
      match findLink q m flags text s with
      | none => none
      | some .stop => some merge
      | some (.skip next) => parseLoop existingEntitiesCount fuel next merge
      | some (.link lnkType lnkStart lnkLength mentionSkip) =>
        parseLoop existingEntitiesCount fuel
          ⟨lnkStart + lnkLength, lnkStart + lnkLength, mentionSkip⟩
          (addLink existingEntitiesCount merge (linkEntity lnkType lnkStart lnkLength))
    else some merge

/-- `ParseEntities` without `rich`; `none` stands for a loop that does not end. -/
def ParseEntities (result : TextWithEntities) : Option TextWithEntities :=
  (parseLoop q m flags result.text result.entities.length (result.text.length + 1) ⟨0, 0, 0⟩
    ⟨0, 0, [], result.entities⟩).map fun s =>
      { result with entities := merged result.entities.length s }

/-! ## The links of a text -/

/-- The links the loop recognises. -/
def recognised : ℕ → Scan → Option (List EntityInText)
  | 0, _ => none
  | fuel + 1, s =>
    if s.offset < text.length then
      match findLink q m flags text s with
      | none => none
      | some .stop => some []
      | some (.skip next) => recognised fuel next
      | some (.link lnkType lnkStart lnkLength mentionSkip) =>
        (recognised fuel ⟨lnkStart + lnkLength, lnkStart + lnkLength, mentionSkip⟩).map fun links =>
          linkEntity lnkType lnkStart lnkLength :: links
    else some []

def recognisedLinks : Option (List EntityInText) :=
  recognised q m flags text (text.length + 1) ⟨0, 0, 0⟩

/-- The link starts at or after the end of all entities that start no later than it. -/
def Clear (existing : List EntityInText) (link : EntityInText) : Prop :=
  ∀ entity ∈ existing, entity.offset ≤ link.offset → entity.stop ≤ link.offset

/-- Links are added to the existing entities. -/
structure Adds (existing links result : List EntityInText) : Prop where
  kept : existing.Sublist result
  added : ∀ link ∈ links, Clear existing link → link ∈ result
  sorted : SortedByOffset result

/-- A match of at least one character behind its captured neighbours, in the searched
range. -/
structure MatchInside (text : QString) (offset last : ℕ) (found : RegExpMatch) : Prop where
  start : offset ≤ found.capturedStart
  nonempty : trimmedStart found < trimmedEnd found last
  stop : found.capturedEnd ≤ text.length

structure DomainInside (text : QString) (offset : ℕ) (found : RegExpMatch) : Prop where
  start : offset ≤ found.capturedStart
  nonempty : found.capturedStart < found.capturedEnd
  stop : found.capturedEnd ≤ text.length

/-- The matches of the expressions are inside the searched range. -/
structure Matchers.Inside (m : Matchers) (text : QString) : Prop where
  domain : ∀ offset found, m.domain offset = some found → DomainInside text offset found
  domainExplicit : ∀ offset found, m.domainExplicit offset = some found →
    DomainInside text offset found
  hashtag : ∀ offset found, m.hashtag offset = some found → MatchInside text offset 2 found
  mention : ∀ offset found, m.mention offset = some found → MatchInside text offset 2 found
  botCommand : ∀ offset found, m.botCommand offset = some found → MatchInside text offset 3 found
  mailNameAtEnd : ∀ piece start, m.mailNameAtEnd piece = some start → start ≤ piece.length

end Entities

end Bettergram.Ui.Text
