import Mathlib.Data.List.Basic
import Mathlib.Data.Int.Init

/-! # Characters of a text

A text is its UTF-16 units. What Qt knows of a unit, and the platform, are
parameters of the tests.
-/

namespace Bettergram.Ui.Text

abbrev QChar := ℕ
abbrev QString := List QChar

/-- Tables and settings the tests of characters look at. -/
structure Tables where
  isSpace : QChar → Bool
  isLetter : QChar → Bool
  isLetterOrNumber : QChar → Bool
  isMarkNonSpacing : QChar → Bool
  mac : Bool
  elCapitan : Bool

/-- Small letters, spaces, and no units with a meaning of their own. -/
def plainTables : Tables where
  isSpace ch := ch = 32
  isLetter ch := 97 ≤ ch && ch ≤ 122
  isLetterOrNumber ch := 97 ≤ ch && ch ≤ 122
  isMarkNonSpacing _ := false
  mac := false
  elCapitan := false

def TextCommand : QChar := 0x0010

def isHighSurrogate (ch : QChar) : Bool := 0xD800 ≤ ch && ch < 0xDC00
def isLowSurrogate (ch : QChar) : Bool := 0xDC00 ≤ ch && ch < 0xE000

def charAt (text : QString) (position : ℕ) : QChar := text.getD position 0

variable (q : Tables)

def chIsSpace (ch : QChar) : Bool :=
  q.isSpace ch || ch < 32 || ch = 0x2029 || ch = 0x2028 || ch = 0xFFFC || ch = 13 || ch = 9 ||
    ch = 8203

def chIsDiac (ch : QChar) : Bool :=
  q.isMarkNonSpacing ch || ch = 1652 || (64606 ≤ ch && ch ≤ 64611)

def chIsBad (ch : QChar) : Bool :=
  ch = 0 || (8232 ≤ ch && ch < 8237) || (65024 ≤ ch && ch < 65040 && ch ≠ 65039) ||
    (127 ≤ ch && ch < 160 && ch ≠ 156) || (q.mac && ch = 6158) ||
    (q.mac && 0x0B00 ≤ ch && ch ≤ 0x0B7F && chIsDiac q ch && q.elCapitan)

def chReplacedBySpace (ch : QChar) : Bool :=
  ch ≤ 0x02 || (0x07 ≤ ch && ch ≤ 0x09) || (0x0b ≤ ch && ch ≤ 0x1f) || ch = 819 || ch = 831 ||
    ch = 778 || (8232 ≤ ch && ch ≤ 8237)

def chIsNewline (ch : QChar) : Bool := ch = 10 || ch = 156

def chIsLinkEnd (ch : QChar) : Bool :=
  ch = TextCommand || chIsBad q ch || chIsSpace q ch || chIsNewline ch || isLowSurrogate ch ||
    isHighSurrogate ch

/-- `?`, `,`, `.`, `"`, `:`, `!` and `'`. -/
def chIsAlmostLinkEnd (ch : QChar) : Bool := ch ∈ [0x3F, 0x2C, 0x2E, 0x22, 0x3A, 0x21, 0x27]

/-- Space, line feed and the signs of a sentence, a name or a formula. -/
def chIsWordSeparator (ch : QChar) : Bool :=
  ch ∈ [0x20, 0x0A, 0x2E, 0x2C, 0x3F, 0x21, 0x40, 0x23, 0x24, 0x3A, 0x3B, 0x2D, 0x3C, 0x3E, 0x5B,
    0x5D, 0x28, 0x29, 0x7B, 0x7D, 0x3D, 0x2F, 0x2B, 0x25, 0x26, 0x5E, 0x2A, 0x27, 0x22, 0x60, 0x7E,
    0x7C]

/-- `.`, `?` and `!`. -/
def chIsSentenceEnd (ch : QChar) : Bool := ch ∈ [0x2E, 0x3F, 0x21]

/-- `,`, `:` and `;`. -/
def chIsSentencePartEnd (ch : QChar) : Bool := ch ∈ [0x2C, 0x3A, 0x3B]

end Bettergram.Ui.Text

/-! ## Entities of a text

An entity is a part of a text with a meaning: a link, a mention, a format.
-/

namespace Bettergram.Ui.Text

inductive EntityInTextType
  | invalid | url | customUrl | email | hashtag | cashtag | mention | mentionName | botCommand
  | bold | italic | code | pre
  deriving DecidableEq, Repr

@[ext] structure EntityInText where
  type : EntityInTextType
  offset : ℤ
  length : ℤ
  data : QString
  deriving DecidableEq, Repr

namespace EntityInText

def stop (e : EntityInText) : ℤ := e.offset + e.length

def extendToLeft (e : EntityInText) (extent : ℤ) : EntityInText :=
  { e with offset := e.offset - extent, length := e.length + extent }

def shrinkFromRight (e : EntityInText) (shrink : ℤ) : EntityInText :=
  { e with length := e.length - shrink }

def shiftLeft (e : EntityInText) (shift : ℤ) : EntityInText :=
  if e.offset - shift < 0 then
    { e with offset := 0, length := max 0 (e.length + (e.offset - shift)) }
  else { e with offset := e.offset - shift }

def updateTextEnd (e : EntityInText) (textEnd : ℤ) : EntityInText :=
  if textEnd < e.offset then { e with offset := textEnd, length := 0 }
  else if textEnd < e.stop then { e with length := textEnd - e.offset }
  else e

end EntityInText

structure TextWithEntities where
  text : QString
  entities : List EntityInText
  deriving DecidableEq, Repr

/-- The entities stand in the order of their offsets. -/
def SortedByOffset (entities : List EntityInText) : Prop :=
  entities.Pairwise fun a b => a.offset ≤ b.offset

instance (entities : List EntityInText) : Decidable (SortedByOffset entities) :=
  inferInstanceAs (Decidable (entities.Pairwise fun a b => a.offset ≤ b.offset))

/-- The entities do not overlap, and stand in order inside the text. -/
structure Disjoint (text : QString) (entities : List EntityInText) : Prop where
  apart : entities.Pairwise fun a b => a.stop ≤ b.offset
  inside : ∀ e ∈ entities, 0 ≤ e.offset ∧ 0 ≤ e.length ∧ e.stop ≤ text.length

instance (text : QString) (entities : List EntityInText) : Decidable (Disjoint text entities) :=
  decidable_of_iff ((entities.Pairwise fun a b => a.stop ≤ b.offset) ∧
    ∀ e ∈ entities, 0 ≤ e.offset ∧ 0 ≤ e.length ∧ e.stop ≤ text.length)
    ⟨fun h => ⟨h.1, h.2⟩, fun h => ⟨h.apart, h.inside⟩⟩

end Bettergram.Ui.Text
