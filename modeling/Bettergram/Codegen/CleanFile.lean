import Bettergram.Base.StripSources

/-! # The twin of the stripper

The code generators read their files through a copy of the stripper that counts
lines and keeps the line comments. It refuses a file that ends in a block comment.
-/

namespace Bettergram.Codegen
open Base.Parse Base.Parse.Strip

/-- The scanner with its line and the line comments by their line. -/
structure CleanFile where
  strip : Strip
  lineNumber : ℕ
  singleLineComments : List (List UInt8)

namespace CleanFile

def resize (size : ℕ) (comments : List (List UInt8)) : List (List UInt8) :=
  comments.take size ++ List.replicate (size - comments.length) []

/-- The line comment goes to its line before the line ends. -/
def saveComment (f : CleanFile) : CleanFile :=
  if f.strip.pending = [] then f
  else { f with
    singleLineComments :=
      (resize (f.lineNumber + 1) f.singleLineComments).set f.lineNumber f.strip.pending }

def feedContent (f : CleanFile) : CleanFile := { f with strip := f.strip.feedContent }

def feedComment (f : CleanFile) : CleanFile := { f with strip := f.strip.feedComment }

def pass (f : CleanFile) (c : UInt8) : CleanFile := { f with strip := f.strip.pass c }

def setComment (f : CleanFile) (insideComment : InsideComment) : CleanFile :=
  { f with strip := { f.strip with insideComment } }

def nextLine (f : CleanFile) : CleanFile := { f with lineNumber := f.lineNumber + 1 }

/-- A line break that is only counted. -/
def countLine (f : CleanFile) (c : UInt8) : CleanFile := if c = chNewline then f.nextLine else f

/-- One round of the loop, and whether it took the next character as well. -/
def round (f : CleanFile) (currentChar nextChar : UInt8) : CleanFile × Bool :=
  let f := { f with strip := f.strip.quoted currentChar }
  if f.strip.insideString then ((f.countLine currentChar).pass currentChar, false)
  else if f.strip.insideComment = .none ∧ currentChar = chSlash ∧ nextChar = chSlash then
    (((f.feedContent.setComment .singleLine).pass currentChar).pass nextChar, true)
  else if f.strip.insideComment = .singleLine ∧ currentChar = chReturn ∧ nextChar = chNewline then
    ((((f.saveComment.feedComment.pass currentChar).pass nextChar).nextLine).setComment .none, true)
  else if f.strip.insideComment = .singleLine ∧ currentChar = chNewline then
    (((f.saveComment.feedComment.pass currentChar).nextLine).setComment .none, false)
  else if f.strip.insideComment = .none ∧ currentChar = chSlash ∧ nextChar = chAsterisk then
    (((f.feedContent.pass currentChar).pass nextChar).setComment .multiLine, true)
  else if f.strip.insideComment = .multiLine ∧ currentChar = chAsterisk ∧ nextChar = chSlash then
    ((((f.pass currentChar).pass nextChar).feedComment).setComment .none, true)
  else if f.strip.insideComment = .multiLine ∧ currentChar = chReturn ∧ nextChar = chNewline then
    ((((f.feedComment.pass currentChar).pass nextChar).nextLine).feedContent, true)
  else if f.strip.insideComment = .multiLine ∧ currentChar = chNewline then
    (((f.feedComment.pass currentChar).nextLine).feedContent, false)
  else ((f.countLine currentChar).pass currentChar, false)

/-- The loop; at the last character the next one counts as 0. -/
def loop : CleanFile → List UInt8 → CleanFile
  | f, [] => f
  | f, [c] => (f.round c 0).1
  | f, c :: d :: rest =>
    if (f.round c d).2 then loop (f.round c d).1 rest else loop (f.round c d).1 (d :: rest)

/-- Whether a round looks in front of the input. -/
def loopStrays : CleanFile → List UInt8 → Bool
  | _, [] => false
  | f, [c] => f.strip.strays c
  | f, c :: d :: rest =>
    f.strip.strays c || if (f.round c d).2 then loopStrays (f.round c d).1 rest
      else loopStrays (f.round c d).1 (d :: rest)

def start : CleanFile := ⟨plain [] false, 0, []⟩

/-- The result and the line comments, or nothing for a file that ends in a block comment. -/
def read (content : List UInt8) : Option (List UInt8 × List (List UInt8)) :=
  let f := start.loop content
  let singleLineComments := resize (f.lineNumber + 1) f.singleLineComments
  if f.strip.insideComment = .multiLine then none
  else some (f.strip.finish content, singleLineComments)

/-! ## The two scanners agree -/

@[simp] theorem strip_saveComment (f : CleanFile) : f.saveComment.strip = f.strip := by
  rw [saveComment]
  split <;> rfl

@[simp] theorem strip_countLine (f : CleanFile) (c : UInt8) : (f.countLine c).strip = f.strip := by
  rw [countLine]
  split <;> rfl

/-- A round does to the text what a round of the stripper does. -/
theorem strip_round (f : CleanFile) (c d : UInt8) :
    ((f.round c d).1.strip, (f.round c d).2) = f.strip.round c d := by
  rw [CleanFile.round, Strip.round]
  generalize f.strip.quoted c = s
  dsimp only
  split_ifs <;> simp [CleanFile.pass, CleanFile.feedComment, CleanFile.feedContent, setComment,
    nextLine, Strip.pass, Strip.feedComment_eq, Strip.feedContent]

theorem strip_loop (f : CleanFile) (text : List UInt8) : (f.loop text).strip = f.strip.loop text := by
  fun_induction CleanFile.loop f text with
  | case1 f => rfl
  | case2 f c => exact congrArg Prod.fst (strip_round f c 0)
  | case3 f c d rest htwo ih =>
    rw [ih, loop_of_two (by rw [← strip_round f c d, htwo])]
  | case4 f c d rest hone ih =>
    have hround : f.strip.round c ((d :: rest).headD 0) = ((f.round c d).1.strip, false) := by
      rw [Bool.not_eq_true] at hone
      rw [List.headD_cons, ← strip_round f c d, hone]
    rw [ih, loop_of_one hround]

theorem strip_strays (f : CleanFile) (text : List UInt8) :
    f.loopStrays text = f.strip.loopStrays text := by
  fun_induction CleanFile.loopStrays f text with
  | case1 f => rfl
  | case2 f c => rfl
  | case3 f c d rest htwo hone =>
    rw [Strip.loopStrays, ← strip_round f c d, htwo, hone]

/-- What is read is what the stripper leaves, but for a file that ends in a block comment. -/
theorem read_eq (content : List UInt8) :
    (read content).map Prod.fst =
      if ((plain [] false).loop content).insideComment = .multiLine then none
      else some (stripComments content) := by
  have hstrip : (start.loop content).strip = (plain [] false).loop content := strip_loop start content
  rw [read, hstrip]
  split <;> rfl

/-- The file is read, and its comments are replaced. -/
def ReadsRight (source : Source) : Prop :=
  ∃ result, (read source.bytes).map Prod.fst = some result ∧ source.Right result

theorem readsRight_iff (source : Source) :
    ReadsRight source ↔ EvenQuotes source.last false source.segments := by
  rw [ReadsRight, read_eq]
  constructor
  · rintro ⟨result, hread, hright⟩
    split at hread
    · simp at hread
    · rw [← Option.some.inj hread] at hright
      exact (stripComments_right_iff source).mp hright
  · intro heven
    have hend := (outside_plain.segments (by simp [Follows]) source.apart heven).2
    exact ⟨_, if_neg hend, (stripComments_right_iff source).mpr heven⟩

/-- Both scanners replace the comments of a source exactly when the quotes that they take for others
are even in number where it matters, and they read in front of their input exactly when it begins
with a backslash and a quote. -/
theorem comments_stripped_iff (source : Source) (content : List UInt8) :
    (source.Right (stripComments source.bytes) ∧ ReadsRight source ↔
      EvenQuotes source.last false source.segments) ∧
    ((plain [] false).loopStrays content = false ∧ start.loopStrays content = false ↔
      ¬[chBackslash, chQuote] <+: content) := by
  constructor
  · rw [stripComments_right_iff, readsRight_iff, and_self]
  · have hstrays : start.loopStrays content = (plain [] false).loopStrays content :=
      strip_strays start content
    rw [hstrays, and_self, ← loopStrays_plain_iff, Bool.not_eq_true]

/-- A literal with three backslashes before a quote, and two slashes behind it. -/
def strayLiteral : Source where
  segments := [.literal [.escaped chBackslash, .escaped chQuote, .plain chSlash (by decide),
    .plain chSlash (by decide)]]
  last := none
  apart := ⟨rfl, trivial⟩

theorem comments_not_stripped :
    ¬strayLiteral.Right (stripComments strayLiteral.bytes) ∧ ¬ReadsRight strayLiteral ∧
      (plain [] false).loopStrays [chBackslash, chQuote] = true ∧
      start.loopStrays [chBackslash, chQuote] = true := by
  have hodd : ¬EvenQuotes strayLiteral.last false strayLiteral.segments := fun h => by
    have := h.1.2.2.1
    exact absurd (this rfl) (by decide)
  rw [stripComments_right_iff, readsRight_iff]
  exact ⟨hodd, hodd, by decide, by decide⟩

end CleanFile

end Bettergram.Codegen
