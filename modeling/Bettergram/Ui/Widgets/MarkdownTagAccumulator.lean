import Bettergram.Ui.Text.TextEntity
import Mathlib.Data.Fintype.Defs
import Mathlib.Data.List.FinRange
import Mathlib.Logic.Function.Basic

/-! # Markdown tags of a typed text

The text of a field comes in fragments. In each the accumulator looks for the
markers of tags: open ones are closed first, then the next one is opened. What a
fragment adds to the text has other positions than the fragment itself when its
characters stand for emoji.
-/

namespace Bettergram.Ui.Widgets

open Text (QChar QString charAt)

def kTagBold : QString := [42, 42]
def kTagItalic : QString := [95, 95]
def kTagCode : QString := [96]
def kTagPre : QString := [96, 96, 96]

def ObjectReplacementCharacter : QChar := 0xFFFC

def kNewlineChars : QString := [13, 10, 0xfdd0, 0xfdd1, 0x2029, 0x2028]

def IsNewline (ch : QChar) : Bool := kNewlineChars.contains ch

structure TagStartExpression where
  tag : QString
  goodBefore : QString
  badAfter : QString

/-- Quotes and the ellipsis. -/
def Quotes : QString := [0xAB, 0xBB, 0x201C, 0x201D, 0x2018, 0x2019, 0x2026]

/-- ` .,:;<>|'"[]{}~!?%^()-+=`, the ends of lines and frames, and quotes. -/
def Separators (additional : QString) : QString :=
  [32, 16, 10, 13, 9, 46, 44, 58, 59, 60, 62, 124, 39, 34, 91, 93, 123, 125, 126, 33, 63, 37, 94,
    40, 41, 45, 43, 61] ++ [0xfdd0, 0xfdd1, 0x2029, 0x2028] ++ Quotes ++ additional

def SeparatorsBold : QString := Separators [96, 47]
def SeparatorsItalic : QString := Separators [96, 42, 47]
def SeparatorsMono : QString := Separators [42, 47]

def TagStartExpressions : Fin 4 → TagStartExpression
  | 0 => ⟨kTagBold, SeparatorsBold, [42]⟩
  | 1 => ⟨kTagItalic, SeparatorsItalic, [95]⟩
  | 2 => ⟨kTagCode, SeparatorsMono, [96, 10, 13]⟩
  | 3 => ⟨kTagPre, SeparatorsMono, [96]⟩

def TagIndices (tag : QString) : Option (Fin 4) :=
  (List.finRange 4).find? fun i => (TagStartExpressions i).tag = tag

def DoesTagFinishByNewline (tag : QString) : Bool := tag = kTagCode

def kInvalidPosition : ℕ := 2147483647 / 2

/-! ## The next marker of a kind -/

inductive Edge
  | Open | Close
  deriving DecidableEq, Repr

structure TagSearchItem where
  offset : ℕ := 0
  position : Option ℕ := none
  checkedOpen : Bool := false
  checkedClose : Bool := false
  deriving Repr

def indexOf (text tag : QString) (offset : ℕ) : Option ℕ :=
  (List.range' offset (text.length + 1 - offset)).find? fun position =>
    tag.isPrefixOf (text.drop position)

namespace TagSearchItem

def matchPosition (item : TagSearchItem) : ℕ := item.position.getD kInvalidPosition

def applyOffset (item : TagSearchItem) (offset : ℕ) : TagSearchItem :=
  { item with
    position := item.position.filter fun position => offset ≤ position
    offset := max item.offset offset }

def checked (item : TagSearchItem) : Edge → Bool
  | .Open => item.checkedOpen
  | .Close => item.checkedClose

def setChecked (item : TagSearchItem) : Edge → TagSearchItem
  | .Open => { item with checkedOpen := true }
  | .Close => { item with checkedClose := true }

def check (text : QString) (edge : Edge) (expression : TagStartExpression) (position : ℕ) : Bool :=
  let isGood ch := expression.goodBefore.contains ch
  let isBad ch := expression.badAfter.contains ch
  let before := charAt text (position - 1)
  let after := charAt text (position + expression.tag.length)
  !(decide (0 < position) &&
      match edge with
      | .Open => !isGood before
      | .Close => isBad before) &&
    !(decide (position + expression.tag.length < text.length) &&
      match edge with
      | .Open => isBad after
      | .Close => !isGood after)

/-- The loop from an offset on: the place of the next marker that fits, and the offset behind
it. A round for each unit is enough. -/
def search (text : QString) (edge : Edge) (expression : TagStartExpression) : ℕ → ℕ → ℕ × ℕ
  | 0, _ => (kInvalidPosition, kInvalidPosition)
  | rounds + 1, offset =>
    match indexOf text expression.tag offset with
    | none => (kInvalidPosition, kInvalidPosition)
    | some position =>
      if check text edge expression position then (position, position + expression.tag.length)
      else search text edge expression rounds (position + expression.tag.length)

def searched (text : QString) (edge : Edge) (expression : TagStartExpression)
    (item : TagSearchItem) : TagSearchItem :=
  let found := search text edge expression (text.length + 1) item.offset
  let item : TagSearchItem := ⟨found.2, some found.1, false, false⟩
  if found.1 = kInvalidPosition then (item.setChecked .Open).setChecked .Close
  else item.setChecked edge

def fill (text : QString) (edge : Edge) (expression : TagStartExpression) (item : TagSearchItem) :
    TagSearchItem :=
  match item.position with
  | some position =>
    if item.checked edge then item
    else if check text edge expression position then item.setChecked edge
    else searched text edge expression item
  | none => searched text edge expression item

end TagSearchItem

/-! ## Tags -/

structure MarkdownTag where
  /-- With each emoji being one character. -/
  internalStart : ℕ
  internalLength : ℤ
  /-- Adjusted by emoji to match the text. -/
  adjustedStart : ℕ
  adjustedLength : ℤ
  closed : Bool
  tag : QString
  deriving DecidableEq, Repr

/-- A fragment of the field: its characters, what it adds to the text, and its tag. -/
structure Fragment where
  text : QString
  adjusted : QString
  textTag : QString

/-- A fragment has no emoji, or only emoji. -/
structure Fragment.Valid (fragment : Fragment) : Prop where
  plain : fragment.adjusted = fragment.text ∨ ∀ ch ∈ fragment.text, ch = ObjectReplacementCharacter

structure MarkdownTagAccumulator where
  tags : List MarkdownTag
  items : Fin 4 → TagSearchItem
  currentTag : ℕ
  currentFreeTag : ℕ
  currentInternalLength : ℕ
  currentAdjustedLength : ℕ

namespace MarkdownTagAccumulator

/-- The tags before are written over one by one. -/
def start (tags : List MarkdownTag) : MarkdownTagAccumulator := ⟨tags, fun _ => { }, 0, 0, 0, 0⟩

def setItem (acc : MarkdownTagAccumulator) (index : Fin 4) (item : TagSearchItem) :
    MarkdownTagAccumulator :=
  { acc with items := Function.update acc.items index item }

def fillItem (acc : MarkdownTagAccumulator) (index : Fin 4) (text : QString) (edge : Edge) :
    MarkdownTagAccumulator :=
  acc.setItem index ((acc.items index).fill text edge (TagStartExpressions index))

def matchPosition (acc : MarkdownTagAccumulator) (index : Fin 4) : ℕ :=
  (acc.items index).matchPosition

def finishTag (acc : MarkdownTagAccumulator) (index : ℕ) (offsetFromAccumulated : ℕ)
    (closed : Bool) : MarkdownTagAccumulator :=
  { acc with
    tags := acc.tags.modify index fun tag =>
      if tag.internalLength < 0 then
        { tag with
          internalLength :=
            acc.currentInternalLength + offsetFromAccumulated - tag.internalStart
          adjustedLength :=
            acc.currentAdjustedLength + offsetFromAccumulated - tag.adjustedStart
          closed := closed }
      else tag
    currentTag := if index = acc.currentTag then acc.currentTag + 1 else acc.currentTag }

def newlinePosition (text : QString) (offset : ℕ) : ℕ :=
  match (text.drop offset).findIdx? fun ch => IsNewline ch with
  | some index => offset + index
  | none => kInvalidPosition

/-- A tag that ends with its line ends there, not closed; `none` says that it does not. -/
def finishByNewline (acc : MarkdownTagAccumulator) (index : ℕ) (tag : MarkdownTag) (text : QString)
    (tagIndex : Fin 4) : Option MarkdownTagAccumulator :=
  let endPosition := newlinePosition text (tag.internalStart + 1 - acc.currentInternalLength)
  if !DoesTagFinishByNewline tag.tag then none
  else if acc.matchPosition tagIndex ≤ endPosition then none
  else some (acc.finishTag index endPosition false)

/-- Tries to finish one tag; `none` is the failed assertion that its kind is known. -/
def tryFinishTag (acc : MarkdownTagAccumulator) (index : ℕ) (text : QString) :
    Option MarkdownTagAccumulator :=
  match acc.tags[index]? with
  | none => some acc
  | some tag =>
    if 0 ≤ tag.internalLength then some acc
    else (TagIndices tag.tag).map fun tagIndex =>
      let atLeastOffset := tag.internalStart + tag.tag.length + 1 - acc.currentInternalLength
      let acc := acc.setItem tagIndex ((acc.items tagIndex).applyOffset atLeastOffset)
      let acc := acc.fillItem tagIndex text .Close
      match acc.finishByNewline index tag text tagIndex with
      | some acc => acc
      | none =>
        let position := acc.matchPosition tagIndex
        if position < kInvalidPosition then
          let till := position + tag.tag.length
          let acc := acc.finishTag index till true
          acc.setItem tagIndex ((acc.items tagIndex).applyOffset till)
        else acc

def tryFinishTags (text : QString) : ℕ → ℕ → MarkdownTagAccumulator → Option MarkdownTagAccumulator
  | 0, _, acc => some acc
  | count + 1, index, acc =>
    (acc.tryFinishTag index text).bind (tryFinishTags text count (index + 1))

def startTag (acc : MarkdownTagAccumulator) (offsetFromAccumulated : ℕ) (tag : QString) :
    MarkdownTagAccumulator :=
  let newTag : MarkdownTag :=
    ⟨acc.currentInternalLength + offsetFromAccumulated, -1,
      acc.currentAdjustedLength + offsetFromAccumulated, -1, false, tag⟩
  { acc with
    tags := if acc.currentFreeTag < acc.tags.length then acc.tags.set acc.currentFreeTag newTag
      else acc.tags ++ [newTag]
    currentFreeTag := acc.currentFreeTag + 1 }

/-- The kind with the first marker. -/
def minIndex (acc : MarkdownTagAccumulator) : Option (Fin 4) :=
  ((List.finRange 4).foldl (fun (result : Option (Fin 4) × ℕ) i =>
    let position := acc.matchPosition i
    if position < result.2 then (some i, position) else result) (none, kInvalidPosition)).1

def fillItems (acc : MarkdownTagAccumulator) (text : QString) : MarkdownTagAccumulator :=
  { acc with items := fun i => (acc.items i).fill text .Open (TagStartExpressions i) }

/-- The loop over the text of a fragment; `none` says that more rounds are needed. -/
def feedLoop (text : QString) : ℕ → ℕ → MarkdownTagAccumulator → Option MarkdownTagAccumulator
  | 0, _, _ => none
  | rounds + 1, tryFinish, acc =>
    (tryFinishTags text (acc.currentFreeTag - tryFinish) tryFinish acc).bind fun acc =>
      let acc := acc.fillItems text
      match acc.minIndex with
      | none => some acc
      | some min =>
        feedLoop text rounds acc.currentFreeTag
          (acc.startTag (acc.matchPosition min) (TagStartExpressions min).tag)

/-- The tags that are not finished end without being closed. -/
def finishTags (acc : MarkdownTagAccumulator) : MarkdownTagAccumulator :=
  (List.range' acc.currentTag (acc.currentFreeTag - acc.currentTag)).foldl
    (fun acc index => acc.finishTag index 0 false) acc

def feed (rounds : ℕ) (acc : MarkdownTagAccumulator) (fragment : Fragment) :
    Option MarkdownTagAccumulator :=
  let guard acc : MarkdownTagAccumulator :=
    { acc with
      currentInternalLength := acc.currentInternalLength + fragment.text.length
      currentAdjustedLength := acc.currentAdjustedLength + fragment.adjusted.length }
  if fragment.textTag ≠ [] then some (guard acc.finishTags)
  else
    (feedLoop fragment.text rounds acc.currentTag { acc with items := fun _ => { } }).map guard

def finish (acc : MarkdownTagAccumulator) : List MarkdownTag :=
  let acc := acc.finishTags
  acc.tags.take acc.currentTag

end MarkdownTagAccumulator

/-- The tags of a text in fragments; those before are of the text before. -/
def markdownTags (rounds : ℕ) (tags : List MarkdownTag) (fragments : List Fragment) :
    Option (List MarkdownTag) :=
  (fragments.foldlM (MarkdownTagAccumulator.feed rounds)
    (MarkdownTagAccumulator.start tags)).map MarkdownTagAccumulator.finish

end Bettergram.Ui.Widgets
