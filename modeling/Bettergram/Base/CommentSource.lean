import Bettergram.Base.ParseHelper

/-! # Sources with comments

A source is string literals, comments and other characters, one after the other.
In a literal a backslash escapes the character behind it.
-/

namespace Bettergram.Base.Parse

/-- What a string literal is made of. -/
inductive Piece
  | plain (c : UInt8) (h : c ≠ chQuote ∧ c ≠ chBackslash)
  | escaped (c : UInt8)

namespace Piece

def bytes : Piece → List UInt8
  | .plain c _ => [c]
  | .escaped c => [chBackslash, c]

def last : Piece → UInt8
  | .plain c _ => c
  | .escaped c => c

def isQuote : Piece → Bool
  | .plain _ _ => false
  | .escaped c => c = chQuote

def isBackslash : Piece → Bool
  | .plain _ _ => false
  | .escaped c => c = chBackslash

end Piece

/-- A block comment is over. -/
def closes : List UInt8 → Bool
  | c :: d :: rest => (c = chAsterisk && d = chSlash) || closes (d :: rest)
  | _ => false

inductive Segment
  | literal (pieces : List Piece)
  | line (text : List UInt8) (crlf : Bool)
    (h : chNewline ∉ text ∧ (crlf = false → text.getLast? ≠ some chReturn))
  | block (text : List UInt8) (h : closes (text ++ [chAsterisk]) = false)
  | other (c : UInt8) (h : c ≠ chQuote ∧ c ≠ chBackslash)

def lineEnd (crlf : Bool) : List UInt8 := if crlf then [chReturn, chNewline] else [chNewline]

def literalBytes (pieces : List Piece) : List UInt8 := pieces.flatMap Piece.bytes

/-- The lines of a block comment from inside it: a space for a line that is not empty, and the line
breaks. -/
def blankLines : Bool → List UInt8 → List UInt8
  | _, [] => [chSpace]
  | pending, c :: text =>
    if c = chNewline ∨ c = chReturn ∧ text.head? = some chNewline then
      (if pending then [chSpace] else []) ++ c :: blankLines false text
    else blankLines true text

namespace Segment

def bytes : Segment → List UInt8
  | .literal pieces => chQuote :: (literalBytes pieces ++ [chQuote])
  | .line text crlf _ => chSlash :: chSlash :: (text ++ lineEnd crlf)
  | .block text _ => chSlash :: chAsterisk :: (text ++ [chAsterisk, chSlash])
  | .other c _ => [c]

/-- What is wanted for it. -/
def stripped : Segment → List UInt8
  | .literal pieces => (Segment.literal pieces).bytes
  | .line _ crlf _ => chSpace :: lineEnd crlf
  | .block text _ => blankLines true text
  | .other c _ => [c]

end Segment

def segmentsBytes (segments : List Segment) : List UInt8 := segments.flatMap Segment.bytes

/-- The text of a line comment at the very end. -/
abbrev LastComment := Option {text : List UInt8 // chNewline ∉ text}

def lastBytes : LastComment → List UInt8
  | none => []
  | some text => chSlash :: chSlash :: text.val

/-- Whether the segment is a character that begins a comment with what is behind it. -/
def Segment.joins (rest : List UInt8) : Segment → Bool
  | .other c _ => startsComment (c :: rest)
  | _ => false

/-- No other character begins a comment with what is behind it. -/
def Apart (behind : List UInt8) : List Segment → Prop
  | [] => True
  | segment :: segments =>
    segment.joins (segmentsBytes segments ++ behind) = false ∧ Apart behind segments

structure Source where
  segments : List Segment
  last : LastComment
  apart : Apart (lastBytes last) segments

namespace Source

def bytes (source : Source) : List UInt8 :=
  segmentsBytes source.segments ++ lastBytes source.last

def stripped (source : Source) : List UInt8 := source.segments.flatMap Segment.stripped

/-- The comments are replaced and nothing else; a line comment at the very end may be dropped. -/
def Right (source : Source) (result : List UInt8) : Prop :=
  result = source.stripped ∨
    (source.last.isSome = true ∧ result = source.stripped ++ [chSpace])

end Source

/-! ## Quotes behind many backslashes -/

/-- A quote that is escaped behind an escaped backslash: the run of backslashes before it has three
or more, an odd number. `doubled` says that an escaped backslash came before. -/
def flipsOf (doubled : Bool) (piece : Piece) : Bool := doubled && piece.isQuote

/-- Whether the number of such quotes is odd, from `flipped` on. -/
def flippedAfter : Bool → Bool → List Piece → Bool
  | flipped, _, [] => flipped
  | flipped, doubled, piece :: pieces =>
    flippedAfter (flipped ^^ flipsOf doubled piece) piece.isBackslash pieces

/-- Nothing in the literal looks like a comment while the number of such quotes is odd. -/
def Quiet : Bool → Bool → List Piece → Prop
  | _, _, [] => True
  | flipped, doubled, piece :: pieces =>
    ((flipped ^^ flipsOf doubled piece) = true →
      startsComment (piece.last :: literalBytes pieces) = false) ∧
    Quiet (flipped ^^ flipsOf doubled piece) piece.isBackslash pieces

namespace Segment

/-- Comments are taken for comments, and nothing else is. -/
def Seen (flipped : Bool) : Segment → Prop
  | .literal pieces => Quiet flipped false pieces
  | .line _ _ _ => flipped = false
  | .block _ _ => flipped = false
  | .other _ _ => True

def flips (flipped : Bool) : Segment → Bool
  | .literal pieces => flippedAfter flipped false pieces
  | _ => flipped

end Segment

/-- No comment begins, and nothing in a literal looks like one, while the number of quotes so far
that are escaped behind an escaped backslash is odd. -/
def EvenQuotes (last : LastComment) : Bool → List Segment → Prop
  | flipped, [] => flipped = true → last = none
  | flipped, segment :: segments =>
    segment.Seen flipped ∧ EvenQuotes last (segment.flips flipped) segments

end Bettergram.Base.Parse
