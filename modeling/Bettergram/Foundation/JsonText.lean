import Mathlib.Data.Nat.Notation
import Mathlib.Data.List.Basic

/-! # The grammar of JSON

Strings, objects and arrays are read from the left; what is read and the rest are
returned, or nothing when the text is not in the grammar. Values that are not
strings are read by a parameter.
-/

namespace Bettergram.Foundation.Json

abbrev Reader (α : Type) := List Char → Option (α × List Char)

def isBlank (c : Char) : Bool := c = ' ' || c = '\t' || c = '\n' || c = '\r'

def skipBlanks (s : List Char) : List Char := s.dropWhile isBlank

/-! ## Strings -/

def hexDigit (c : Char) : Option ℕ :=
  if '0' ≤ c ∧ c ≤ '9' then some (c.toNat - 48)
  else if 'A' ≤ c ∧ c ≤ 'F' then some (c.toNat - 55)
  else if 'a' ≤ c ∧ c ≤ 'f' then some (c.toNat - 87)
  else none

/-- The UTF-16 unit of four digits. -/
def hexUnit (a b c d : Char) : Option ℕ := do
  return 4096 * (← hexDigit a) + 256 * (← hexDigit b) + 16 * (← hexDigit c) + (← hexDigit d)

def escapedAs (c : Char) : Option Char :=
  match c with
  | '"' => some '"'
  | '\\' => some '\\'
  | '/' => some '/'
  | 'b' => some '\x08'
  | 'f' => some '\x0c'
  | 'n' => some '\n'
  | 'r' => some '\r'
  | 't' => some '\t'
  | _ => none

def isHigh (unit : ℕ) : Bool := 0xD800 ≤ unit && unit < 0xDC00
def isLow (unit : ℕ) : Bool := 0xDC00 ≤ unit && unit < 0xE000

/-- What is behind the opening quote. A unit that is half of a character needs the other half. -/
def readChars : Reader (List Char)
  | [] => none
  | '"' :: rest => some ([], rest)
  | '\\' :: 'u' :: a :: b :: c :: d :: rest =>
    match hexUnit a b c d with
    | none => none
    | some unit =>
      if isLow unit then none
      else if isHigh unit then
        match rest with
        | '\\' :: 'u' :: a :: b :: c :: d :: rest =>
          match hexUnit a b c d with
          | none => none
          | some low =>
            if isLow low then
              (readChars rest).map fun (text, rest) =>
                (Char.ofNat (0x10000 + 0x400 * (unit - 0xD800) + (low - 0xDC00)) :: text, rest)
            else none
        | _ => none
      else (readChars rest).map fun (text, rest) => (Char.ofNat unit :: text, rest)
  | '\\' :: letter :: rest =>
    match escapedAs letter with
    | none => none
    | some c => (readChars rest).map fun (text, rest) => (c :: text, rest)
  | c :: rest =>
    if c.toNat < 0x20 ∨ c = '\\' then none
    else (readChars rest).map fun (text, rest) => (c :: text, rest)

def readString : Reader (List Char)
  | '"' :: rest => readChars rest
  | _ => none

/-! ## Objects and arrays -/

section

variable {α : Type}

/-- A string, or what the parameter reads. -/
def readValue (other : Reader α) : Reader (List Char ⊕ α)
  | '"' :: rest => (readChars rest).map fun (text, rest) => (.inl text, rest)
  | s => (other s).map fun (a, rest) => (.inr a, rest)

def readMember (value : Reader α) : Reader (List Char × α) := fun s =>
  match readString s with
  | none => none
  | some (key, rest) =>
    match skipBlanks rest with
    | ':' :: rest => (value (skipBlanks rest)).map fun (a, rest) => ((key, a), rest)
    | _ => none

/-- Items with commas between them, up to the closing bracket; `none` also when there are more
items than rounds. -/
def readItems (item : Reader α) (close : Char) : ℕ → Reader (List α)
  | 0, _ => none
  | rounds + 1, s =>
    match item (skipBlanks s) with
    | none => none
    | some (a, rest) =>
      match skipBlanks rest with
      | [] => none
      | c :: rest =>
        if c = close then some ([a], rest)
        else if c = ',' then
          (readItems item close rounds rest).map fun (as, rest) => (a :: as, rest)
        else none

/-- Brackets around items, which may be none. -/
def readBracketed (item : Reader α) (opening close : Char) : Reader (List α)
  | [] => none
  | c :: s =>
    if c = opening then
      match skipBlanks s with
      | [] => none
      | d :: rest => if d = close then some ([], rest) else readItems item close s.length s
    else none

def readObject (value : Reader α) : Reader (List (List Char × α)) :=
  readBracketed (readMember value) '{' '}'

def readArray (value : Reader α) : Reader (List α) := readBracketed value '[' ']'

end

example : readObject (readValue (fun _ => (none : Option (ℕ × List Char))))
    "\x7b\n \"a\\u0041\" : \"\\ud83d\\uDE00\", \"b\":\"\\/\"\x7d".toList =
      some ([(['a', 'A'], .inl ['😀']), (['b'], .inl ['/'])], []) := by decide +kernel

/-! ## What the readers do with a text in pieces -/

theorem skipBlanks_append {blanks : List Char} (h : ∀ c ∈ blanks, isBlank c = true)
    (s : List Char) : skipBlanks (blanks ++ s) = skipBlanks s := by
  rw [skipBlanks, List.dropWhile_append_of_pos h, skipBlanks]

theorem skipBlanks_cons_of_not {c : Char} (h : isBlank c = false) (s : List Char) :
    skipBlanks (c :: s) = c :: s := by
  rw [skipBlanks, List.dropWhile_cons_of_neg (by simp [h])]

/-- A character that stands for itself. -/
theorem readChars_plain {c : Char} (hquote : c ≠ '"') (hslash : c ≠ '\\') (hc : 0x20 ≤ c.toNat)
    (rest : List Char) :
    readChars (c :: rest) = (readChars rest).map fun (text, rest) => (c :: text, rest) := by
  rw [readChars.eq_def]
  split <;> simp_all <;> omega

theorem readChars_escaped {letter c : Char} (h : escapedAs letter = some c) (rest : List Char) :
    readChars ('\\' :: letter :: rest) =
      (readChars rest).map fun (text, rest) => (c :: text, rest) := by
  have hletter : letter ≠ 'u' := by
    rintro rfl
    simp [escapedAs] at h
  simp [readChars, h, hletter]

/-- No escape begins with another letter. -/
theorem readChars_other {letter : Char} (h : escapedAs letter = none) (hletter : letter ≠ 'u')
    (rest : List Char) : readChars ('\\' :: letter :: rest) = none := by
  simp [readChars, h, hletter]

theorem readValue_of_ne {α : Type} {other : Reader α} {c : Char} (hc : c ≠ '"') (s : List Char) :
    readValue other (c :: s) = (other (c :: s)).map fun (a, rest) => (.inr a, rest) := by
  rw [readValue]
  simpa using hc

/-! ## Items -/

section

variable {α : Type} {item : Reader α} {close : Char}

/-- A comma or the end of a line is next. -/
def Delimited (rest : List Char) : Prop := ∃ c behind, rest = c :: behind ∧ (c = ',' ∨ c = '\n')

/-- The reader takes the token, or refuses it, whatever comes behind. -/
structure Takes (item : Reader α) (close : Char) (token : List Char) (a : α) (good : Prop) :
    Prop where
  starts : ∃ c rest, token = c :: rest ∧ isBlank c = false ∧ c ≠ close
  takes : good → ∀ rest, Delimited rest → item (token ++ rest) = some (a, rest)
  refuses : ¬good → ∀ rest, Delimited rest → item (token ++ rest) = none

theorem Takes.skipBlanks_token {token : List Char} {a : α} {good : Prop}
    (h : Takes item close token a good) (rest : List Char) :
    ∃ c behind, skipBlanks (token ++ rest) = token ++ rest ∧ token ++ rest = c :: behind ∧
      c ≠ close := by
  obtain ⟨c, tail, rfl, hblank, hne⟩ := h.starts
  exact ⟨c, tail ++ rest, skipBlanks_cons_of_not hblank _, rfl, hne⟩

/-- The items behind the first one, and the closing bracket. -/
def behindItem (next indent : List Char) (close : Char) : List (List Char) → List Char → List Char
  | [], rest => '\n' :: (indent ++ close :: rest)
  | token :: tokens, rest => ',' :: (next ++ (token ++ behindItem next indent close tokens rest))

theorem delimited_behindItem (next indent : List Char) (close : Char) (tokens : List (List Char))
    (rest : List Char) : Delimited (behindItem next indent close tokens rest) := by
  cases tokens with
  | nil => exact ⟨_, _, rfl, .inr rfl⟩
  | cons token tokens => exact ⟨_, _, rfl, .inl rfl⟩

theorem length_behindItem (next indent : List Char) (close : Char) (tokens : List (List Char))
    (rest : List Char) : tokens.length < (behindItem next indent close tokens rest).length := by
  induction tokens with
  | nil => simp [behindItem]
  | cons token tokens ih =>
    rw [behindItem]
    simp only [List.length_cons, List.length_append]
    omega

/-- A reader that takes every token takes the items; it refuses them when it refuses one. -/
theorem readItems_iff {ι : Type} {next indent : List Char} (hnext : ∀ c ∈ next, isBlank c = true)
    (hindent : ∀ c ∈ indent, isBlank c = true) (hclose : isBlank close = false)
    (hcomma : close ≠ ',') {token : ι → List Char} {a : ι → α} {good : ι → Prop} {i : ι}
    {is : List ι} (htakes : ∀ j ∈ i :: is, Takes item close (token j) (a j) (good j)) {rounds : ℕ}
    (hrounds : is.length < rounds) (rest : List Char) :
    ((∀ j ∈ i :: is, good j) → readItems item close rounds
        (next ++ (token i ++ behindItem next indent close (is.map token) rest)) =
          some (a i :: is.map a, rest)) ∧
      (¬(∀ j ∈ i :: is, good j) → readItems item close rounds
        (next ++ (token i ++ behindItem next indent close (is.map token) rest)) = none) := by
  induction rounds generalizing i is with
  | zero => omega
  | succ rounds ih =>
    have hi := htakes i List.mem_cons_self
    have hdelimited := delimited_behindItem next indent close (is.map token) rest
    obtain ⟨-, -, hblanks, -⟩ := hi.skipBlanks_token
      (behindItem next indent close (is.map token) rest)
    rw [readItems, skipBlanks_append hnext, hblanks]
    by_cases hgood : good i
    swap
    · rw [hi.refuses hgood _ hdelimited]
      exact ⟨fun h => absurd (h i List.mem_cons_self) hgood, fun _ => rfl⟩
    rw [hi.takes hgood _ hdelimited]
    cases is with
    | nil =>
      have hblank : ∀ c ∈ '\n' :: indent, isBlank c = true :=
        List.forall_mem_cons.mpr ⟨by decide, hindent⟩
      have hskip : skipBlanks (behindItem next indent close ([].map token) rest) = close :: rest := by
        rw [List.map_nil, behindItem, ← List.cons_append, skipBlanks_append hblank,
          skipBlanks_cons_of_not hclose]
      dsimp only
      rw [hskip]
      simp [hgood]
    | cons i' is =>
      have hskip : skipBlanks (behindItem next indent close ((i' :: is).map token) rest) =
          ',' :: (next ++ (token i' ++ behindItem next indent close (is.map token) rest)) := by
        rw [List.map_cons, behindItem, skipBlanks_cons_of_not (by decide)]
      obtain ⟨hall, hsome⟩ := ih
        (fun j hj => htakes j (List.mem_cons_of_mem _ hj)) (by simpa using hrounds)
      dsimp only
      rw [hskip]
      dsimp only
      rw [if_neg hcomma.symm, if_pos rfl, List.forall_mem_cons (a := i)]
      refine ⟨fun h => ?_, fun h => ?_⟩
      · rw [hall h.2]
        rfl
      · rw [hsome fun h' => h ⟨hgood, h'⟩]
        rfl

/-- Brackets around the items: the lines inside begin with `next`, the last one with `indent`. -/
def bracketed (next indent : List Char) (opening close : Char) : List (List Char) → List Char
  | [] => opening :: '\n' :: (indent ++ [close])
  | token :: tokens => opening :: (next ++ (token ++ behindItem next indent close tokens []))

theorem readBracketed_iff {ι : Type} {next indent : List Char} {opening : Char}
    (hnext : ∀ c ∈ next, isBlank c = true) (hindent : ∀ c ∈ indent, isBlank c = true)
    (hclose : isBlank close = false) (hcomma : close ≠ ',') {token : ι → List Char} {a : ι → α}
    {good : ι → Prop} {is : List ι} (htakes : ∀ j ∈ is, Takes item close (token j) (a j) (good j)) :
    readBracketed item opening close (bracketed next indent opening close (is.map token)) =
      some (is.map a, []) ↔ ∀ j ∈ is, good j := by
  cases is with
  | nil =>
    have hblank : ∀ c ∈ '\n' :: indent, isBlank c = true :=
      List.forall_mem_cons.mpr ⟨by decide, hindent⟩
    have hskip : skipBlanks ('\n' :: (indent ++ [close])) = [close] := by
      rw [← List.cons_append, skipBlanks_append hblank, skipBlanks_cons_of_not hclose]
    rw [List.map_nil, bracketed, readBracketed, if_pos rfl, hskip]
    simp
  | cons i is =>
    obtain ⟨c, behind, hblanks, htoken, hne⟩ := (htakes i List.mem_cons_self).skipBlanks_token
      (behindItem next indent close (is.map token) [])
    have hlength : is.length < (next ++ (token i ++
        behindItem next indent close (is.map token) [])).length := by
      have := length_behindItem next indent close (is.map token) []
      rw [List.length_map] at this
      simp only [List.length_append]
      omega
    obtain ⟨hall, hnone⟩ := readItems_iff hnext hindent hclose hcomma htakes hlength []
    rw [List.map_cons, bracketed, readBracketed, if_pos rfl, skipBlanks_append hnext, hblanks]
    rw [htoken] at hall hnone ⊢
    dsimp only
    rw [if_neg hne]
    refine ⟨fun h => ?_, hall⟩
    by_contra hbad
    rw [hnone hbad] at h
    exact absurd h (by simp)

end

end Bettergram.Foundation.Json
