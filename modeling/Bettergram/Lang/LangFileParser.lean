import Bettergram.Base.ParseHelper

/-! # Reading language files

A language file is a list of `"key" = "value";`. The parser reads what
`stripComments` leaves of it and stops at the first error.
-/

namespace Bettergram.Lang

open Base.Parse

def chEquals : UInt8 := 0x3D
def chSemicolon : UInt8 := 0x3B
def chN : UInt8 := 0x6E

/-- The characters of a key. -/
def isKeyChar (c : UInt8) : Bool :=
  (0x61 ≤ c && c ≤ 0x7A) || (0x41 ≤ c && c ≤ 0x5A) || c = 0x5F || (0x30 ≤ c && c ≤ 0x39) || c = 0x23

inductive Error
  | emptyContent
  | quoteBeforeName
  | quoteAfterName (key : List UInt8)
  | endOfFile (key : List UInt8)
  | equalsExpected (key : List UInt8)
  | stringExpected (key : List UInt8)
  | endOfString (key : List UInt8)
  | semicolonExpected (key : List UInt8)
deriving DecidableEq

def latin1 (key : List UInt8) : String := String.ofList (key.map fun c => Char.ofNat c.toNat)

def Error.text : Error → String
  | .emptyContent => "Got empty lang file content"
  | .quoteBeforeName => "Expected quote before key name!"
  | .quoteAfterName key => "Expected quote after key name '" ++ latin1 key ++ "'!"
  | .endOfFile key => "Unexpected end of file in key '" ++ latin1 key ++ "'!"
  | .equalsExpected key => "'=' expected in key '" ++ latin1 key ++ "'!"
  | .stringExpected key => "Expected string after '=' in key '" ++ latin1 key ++ "'!"
  | .endOfString key => "Unexpected end of string in key '" ++ latin1 key ++ "'!"
  | .semicolonExpected key => "';' expected after \"value\" in key '" ++ latin1 key ++ "'!"

/-- The loop over the value; `pending` is what stands since `start`. -/
def readValue (key : List UInt8) (skipping : Bool) :
    List UInt8 → List UInt8 → List UInt8 → Except Error (List UInt8 × List UInt8)
  | _, _, [] => .error (.endOfFile key)
  | value, pending, [c] =>
    if c = chQuote then .ok (if skipping then value else value ++ pending, [])
    else if c = chNewline then .error (.endOfString key)
    else .error (.endOfFile key)
  | value, pending, c :: d :: rest =>
    if c = chQuote then .ok (if skipping then value else value ++ pending, d :: rest)
    else if c = chNewline then .error (.endOfString key)
    else if c = chBackslash then
      if d = chQuote ∨ d = chBackslash then
        readValue key skipping (if skipping then value else value ++ pending) [d] rest
      else if d = chN then
        readValue key skipping (if skipping then value else value ++ pending ++ [chNewline]) [] rest
      else readValue key skipping value (pending ++ [c]) (d :: rest)
    else readValue key skipping value (pending ++ [c]) (d :: rest)

/-- The semicolon after a value. -/
def readSemicolon (key : List UInt8) (read : List UInt8 × List UInt8) :
    Except Error (List UInt8 × List UInt8) :=
  match skipWhitespaces read.2 with
  | [] => .error (.endOfFile key)
  | c :: text =>
    if c ≠ chSemicolon then .error (.semicolonExpected key)
    else .ok (read.1, skipWhitespaces text)

/-- The value of a key and what follows its semicolon. -/
def readAfterEquals (key : List UInt8) (skipping : Bool) (text : List UInt8) :
    Except Error (List UInt8 × List UInt8) :=
  match skipWhitespaces text with
  | [] => .error (.endOfFile key)
  | c :: text =>
    if c ≠ chQuote then .error (.stringExpected key)
    else
      (readValue key skipping [] [] text).bind (readSemicolon key)

/-- The key, its value and the rest; `none` at the end of the text. -/
def readKeyValue (skipping : List UInt8 → Bool) (text : List UInt8) :
    Except Error (Option ((List UInt8 × List UInt8) × List UInt8)) :=
  match skipWhitespaces text with
  | [] => .ok none
  | c :: text =>
    if c ≠ chQuote then .error .quoteBeforeName
    else
      let key := text.takeWhile isKeyChar
      match text.dropWhile isKeyChar with
      | [] => .error (.quoteAfterName key)
      | c :: text =>
        if c ≠ chQuote then .error (.quoteAfterName key)
        else
          match skipWhitespaces text with
          | [] => .error (.endOfFile key)
          | c :: text =>
            if c ≠ chEquals then .error (.equalsExpected key)
            else
              (readAfterEquals key (skipping key) text).map fun read =>
                some ((key, read.1), read.2)

/-- What was read, and the errors. -/
structure Parsed where
  pairs : List (List UInt8 × List UInt8)
  errors : List Error
deriving DecidableEq

/-- The loop of `parse`; the number bounds how many pairs are left. -/
def parseLoop (skipping : List UInt8 → Bool) : ℕ → List UInt8 → Parsed
  | 0, _ => ⟨[], []⟩
  | n + 1, text =>
    if text = [] then ⟨[], []⟩
    else
      match readKeyValue skipping text with
      | .error e => ⟨[], [e]⟩
      | .ok none => ⟨[], []⟩
      | .ok (some (pair, rest)) =>
        let next := parseLoop skipping n rest
        ⟨if skipping pair.1 then next.pairs else pair :: next.pairs, next.errors⟩

/-- The callback gets every pair; a request skips the keys that are not in it. -/
def parse (skipping : List UInt8 → Bool) (content : List UInt8) : Parsed :=
  if content = [] then ⟨[], [.emptyContent]⟩
  else parseLoop skipping content.length content

/-- `FileParser` with a callback. -/
def parseFile (file : List UInt8) : Parsed := parse (fun _ => false) (stripComments file)

end Bettergram.Lang
