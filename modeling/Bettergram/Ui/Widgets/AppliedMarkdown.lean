import Bettergram.Ui.Text.TextEntity
import Bettergram.Ui.Widgets.MarkdownTagAccumulator
import Mathlib.Algebra.BigOperators.Group.List.Basic
import Mathlib.Algebra.Order.Ring.Int

/-! # A text with its markdown applied

The tags are applied one after the other: the text up to a tag and its content are
copied, its markers are not. The tags that the text had before move to the left by
what has been removed.
-/

namespace Bettergram.Ui.Widgets

open Text (QChar QString charAt EntityInText)

structure Tag where
  offset : ℤ
  length : ℤ
  id : QString
  deriving DecidableEq, Repr

def Tag.stop (tag : Tag) : ℤ := tag.offset + tag.length

structure TextWithTags where
  text : QString
  tags : List Tag
  deriving DecidableEq, Repr

/-- The characters from `start` to `stop`. -/
def slice (text : QString) (start stop : ℕ) : QString := (text.drop start).take (stop - start)

def MarkdownTag.adjustedEnd (tag : MarkdownTag) : ℤ := tag.adjustedStart + tag.adjustedLength

/-- The length of what is between the markers. -/
def MarkdownTag.entityLength (tag : MarkdownTag) : ℤ := tag.adjustedLength - 2 * tag.tag.length

/-- The tag intersects the link, but not all of it. -/
def intersectsPartially (tag : MarkdownTag) (link : EntityInText) : Bool :=
  link.offset < tag.adjustedEnd &&
    (tag.adjustedEnd < link.stop || link.offset < tag.adjustedStart)

/-! ## The loop over the tags -/

/-- The result so far, the original tags and the links that are left, and the place up to
which the text is copied. -/
structure Applying where
  result : TextWithTags
  removed : ℤ
  originalTags : List Tag
  textFrom : ℕ
  links : List EntityInText

namespace Applying

def addOriginalTagsUpTill (offset : ℤ) (s : Applying) : Applying :=
  { s with
    result := { s.result with
      tags := s.result.tags ++ (s.originalTags.takeWhile fun tag => tag.stop ≤ offset).map
        fun tag => { tag with offset := tag.offset - s.removed } }
    originalTags := s.originalTags.dropWhile fun tag => tag.stop ≤ offset }

def addOriginalTextUpTill (originalText : QString) (offset : ℕ) (s : Applying) : Applying :=
  { s with result := { s.result with
      text := s.result.text ++ slice originalText s.textFrom offset } }

end Applying

/-- The content of a tag without the newlines of a `pre` block that are redundant. -/
def withoutNewlines (originalText resultText : QString) (tag : MarkdownTag) (entityStart : ℕ)
    (entityLength : ℤ) : ℕ × ℤ :=
  if tag.tag = kTagPre then
    let entity : ℕ × ℤ :=
      if IsNewline (charAt originalText entityStart) &&
          (resultText.isEmpty || IsNewline (charAt resultText (resultText.length - 1))) then
        (entityStart + 1, entityLength - 1)
      else (entityStart, entityLength)
    let entityEnd := (entity.1 + entity.2).toNat
    if IsNewline (charAt originalText (entityEnd - 1)) &&
        (originalText.length ≤ entityEnd + tag.tag.length ||
          IsNewline (charAt originalText (entityEnd + tag.tag.length))) then
      (entity.1, entity.2 - 1)
    else entity
  else (entityStart, entityLength)

/-- Copies the text up to a tag and its content. -/
def addTag (originalText : QString) (tag : MarkdownTag) (s : Applying) : Applying :=
  let s := s.addOriginalTextUpTill originalText tag.adjustedStart
  let entity := withoutNewlines originalText s.result.text tag
    (tag.adjustedStart + tag.tag.length) tag.entityLength
  { s with
    result := if 0 < entity.2 then
        ⟨s.result.text ++ slice originalText entity.1 (entity.1 + entity.2).toNat,
          s.result.tags ++ [⟨s.result.text.length, entity.2, tag.tag⟩]⟩
      else s.result
    textFrom := tag.adjustedEnd.toNat
    removed := s.removed + (tag.adjustedLength - entity.2) }

def applyTag (originalText : QString) (s : Applying) (tag : MarkdownTag) : Applying :=
  if !tag.closed || tag.adjustedStart < s.textFrom then s
  else if tag.entityLength ≤ 0 then s
  else
    let s := s.addOriginalTagsUpTill tag.adjustedStart
    if s.originalTags.head?.any fun originalTag => originalTag.offset < tag.adjustedEnd then s
    else
      let s := { s with links := s.links.dropWhile fun link => link.stop ≤ tag.adjustedStart }
      if s.links.head?.any fun link => intersectsPartially tag link then s
      else addTag originalText tag s

/-- `parseEntities` finds the links of a text. -/
def getTextWithAppliedMarkdown (parseEntities : QString → List EntityInText)
    (markdownEnabled : Bool) (lastTextWithTags : TextWithTags)
    (lastMarkdownTags : List MarkdownTag) : TextWithTags :=
  if !markdownEnabled || lastMarkdownTags.isEmpty then lastTextWithTags
  else
    let originalText := lastTextWithTags.text
    let s := lastMarkdownTags.foldl (applyTag originalText)
      ⟨⟨[], []⟩, 0, lastTextWithTags.tags, 0, parseEntities originalText⟩
    let s := s.addOriginalTagsUpTill originalText.length
    (s.addOriginalTextUpTill originalText originalText.length).result

/-! ## What the result should be -/

/-- A tag that is applied, and what is left of its content. -/
structure Applied where
  tag : MarkdownTag
  start : ℕ
  stop : ℕ
  deriving DecidableEq, Repr

namespace Applied

def tagStart (a : Applied) : ℕ := a.tag.adjustedStart
def tagStop (a : Applied) : ℕ := a.tag.adjustedEnd.toNat

/-- How many characters of the tag are removed. -/
def removed (a : Applied) : ℤ := a.tagStop - a.tagStart - (a.stop - a.start)

end Applied

/-- Where the last tag that is applied ends. -/
def endOf (applied : List Applied) : ℕ :=
  match applied.getLast? with
  | some a => a.tagStop
  | none => 0

/-- What is left of the text from `start` to `stop`. -/
def kept (text : QString) (start : ℕ) : List Applied → (stop : ℕ) → QString
  | [], stop => slice text start stop
  | a :: applied, stop =>
    slice text start a.tagStart ++ slice text a.start a.stop ++ kept text a.tagStop applied stop

/-- A closed tag with a content is applied when it is behind the ones applied before it, and
intersects no original tag, nor a link partially. -/
structure Applies (originals : List Tag) (links : List EntityInText) (start : ℕ)
    (tag : MarkdownTag) : Prop where
  closed : tag.closed = true
  behind : start ≤ tag.adjustedStart
  content : 0 < tag.entityLength
  clear : ∀ original ∈ originals,
    original.stop ≤ tag.adjustedStart ∨ tag.adjustedEnd ≤ original.offset
  whole : ((links.dropWhile fun link => link.stop ≤ (tag.adjustedStart : ℤ)).head?.any fun link =>
    intersectsPartially tag link) = false

instance (originals : List Tag) (links : List EntityInText) (start : ℕ) (tag : MarkdownTag) :
    Decidable (Applies originals links start tag) :=
  decidable_of_iff (tag.closed = true ∧ start ≤ tag.adjustedStart ∧ 0 < tag.entityLength ∧
      (∀ original ∈ originals,
        original.stop ≤ tag.adjustedStart ∨ tag.adjustedEnd ≤ original.offset) ∧
      ((links.dropWhile fun link => link.stop ≤ (tag.adjustedStart : ℤ)).head?.any fun link =>
        intersectsPartially tag link) = false)
    ⟨fun h => ⟨h.1, h.2.1, h.2.2.1, h.2.2.2.1, h.2.2.2.2⟩,
      fun h => ⟨h.closed, h.behind, h.content, h.clear, h.whole⟩⟩

/-- Nothing or a newline stands at the end. -/
def endsLine (text : QString) : Bool := text.isEmpty || IsNewline (charAt text (text.length - 1))

/-- What is left of a tag behind a text: of a `pre` block the newline behind the opening marker
goes when it would start an empty line, and the one before the closing marker when another
newline or the end follows. -/
def remaining (text before : QString) (tag : MarkdownTag) : Applied :=
  let start := tag.adjustedStart + tag.tag.length
  let stop := (tag.adjustedEnd - tag.tag.length).toNat
  if tag.tag = kTagPre then
    let start := if IsNewline (charAt text start) && endsLine before then start + 1 else start
    ⟨tag, start,
      if start < stop && IsNewline (charAt text (stop - 1)) &&
          (text.length ≤ stop + tag.tag.length ||
            IsNewline (charAt text (stop + tag.tag.length))) then stop - 1
      else stop⟩
  else ⟨tag, start, stop⟩

/-- The tags that are applied. -/
def appliedTags (text : QString) (originals : List Tag) (links : List EntityInText)
    (tags : List MarkdownTag) : List Applied :=
  tags.foldl (fun applied tag =>
    if Applies originals links (endOf applied) tag then
      applied ++ [remaining text (kept text 0 applied tag.adjustedStart) tag]
    else applied) []

/-- What the tags before a position count for. -/
def sumBefore (count : Applied → ℤ) (applied : List Applied) (position : ℤ) : ℤ :=
  (applied.map fun a => if (a.tagStop : ℤ) ≤ position then count a else 0).sum

/-- How many characters are removed before a position. -/
def removedBefore (applied : List Applied) (position : ℤ) : ℤ :=
  sumBefore Applied.removed applied position

/-- An original tag at its new place. -/
def moved (applied : List Applied) (tag : Tag) : Tag :=
  { tag with offset := tag.offset - removedBefore applied tag.offset }

/-- The tag for what is left of a content. -/
def entityTag (applied : List Applied) (a : Applied) : Option Tag :=
  if a.start < a.stop then
    some ⟨a.tagStart - removedBefore applied a.tagStart, a.stop - a.start, a.tag.tag⟩
  else none

/-- Tags that stand in order inside a text, with characters and without overlapping. -/
structure DisjointTags (text : QString) (tags : List Tag) : Prop where
  apart : tags.Pairwise fun a b => a.stop ≤ b.offset
  inside : ∀ tag ∈ tags, 0 ≤ tag.offset ∧ 0 < tag.length ∧ tag.stop ≤ text.length

/-- Only markers, and newlines next to those of `pre` blocks, are removed. -/
structure AppliedRight (text : QString) (tags : List MarkdownTag) (applied : List Applied) :
    Prop where
  sublist : (applied.map Applied.tag).Sublist tags
  apart : applied.Pairwise fun a b => a.tagStop ≤ b.tagStart
  inside : ∀ a ∈ applied, a.tagStart + a.tag.tag.length ≤ a.start ∧ a.start ≤ a.stop ∧
    a.stop + a.tag.tag.length ≤ a.tagStop ∧ a.tagStop ≤ text.length
  markers : ∀ a ∈ applied, a.tag.tag <+: text.drop a.tagStart ∧
    a.tag.tag <+: text.drop (a.tagStop - a.tag.tag.length)
  starts : ∀ a ∈ applied, a.start = a.tagStart + a.tag.tag.length ∨
    (a.tag.tag = kTagPre ∧ a.start = a.tagStart + a.tag.tag.length + 1 ∧
      IsNewline (charAt text (a.start - 1)) = true)
  stops : ∀ a ∈ applied, a.stop + a.tag.tag.length = a.tagStop ∨
    (a.tag.tag = kTagPre ∧ a.stop + 1 + a.tag.tag.length = a.tagStop ∧
      IsNewline (charAt text a.stop) = true)

/-- The text without what is removed; the original tags cover what they did, and the tags
stand in order. -/
structure Keeps (text : QString) (originals : List Tag) (applied : List Applied)
    (result : TextWithTags) : Prop where
  content : result.text = kept text 0 applied text.length
  tags : result.tags.Perm (originals.map (moved applied) ++ applied.filterMap (entityTag applied))
  disjoint : DisjointTags result.text result.tags
  covers : ∀ original ∈ originals,
    slice result.text (moved applied original).offset.toNat (moved applied original).stop.toNat =
      slice text original.offset.toNat original.stop.toNat

/-- A `pre` block with nothing but a newline, which is redundant on both sides. -/
def TrimmedTwice (text : QString) (a : Applied) : Prop :=
  a.tag.tag = kTagPre ∧ a.start = a.tagStart + a.tag.tag.length + 1 ∧
    a.start + a.tag.tag.length = a.tagStop ∧
    (text.length ≤ a.tagStop ∨ IsNewline (charAt text a.tagStop) = true)

instance (text : QString) (a : Applied) : Decidable (TrimmedTwice text a) :=
  inferInstanceAs (Decidable (_ ∧ _ ∧ _ ∧ _))

end Bettergram.Ui.Widgets
