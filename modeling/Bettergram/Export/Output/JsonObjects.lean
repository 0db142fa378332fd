import Bettergram.Export.Output.JsonStrings
import Mathlib.Tactic.Tauto

/-! # Objects and arrays of the JSON export

The keys and the strings of an object are read back with it, and what another
function has serialized stands where it was put.
-/

namespace Bettergram.Export.Output.JsonExport
open Foundation Json

variable {α : Type}

/-! ## Items -/

section Items

variable {ι β : Type} {bytes : ι → List UInt8} {token : ι → List Char} {sep : ι → Prop}

theorem isUtf8_appendItems_iff
    (hbytes : ∀ i rest, IsUtf8 (bytes i ++ rest) ↔ sep i ∧ IsUtf8 rest) (next : List Char)
    (first : Bool) (is : List ι) (rest : List UInt8) :
    IsUtf8 (appendItems (utf8 next) first (is.map bytes) ++ rest) ↔
      (∀ i ∈ is, sep i) ∧ IsUtf8 rest := by
  induction is generalizing first with
  | nil => simp [appendItems]
  | cons i is ih =>
    have hcomma : (if first then [] else utf8 [',']) = utf8 (if first then [] else [',']) := by
      cases first <;> rfl
    rw [List.map_cons, appendItems, hcomma, List.append_assoc, List.append_assoc, List.append_assoc,
      isUtf8_append_iff, isUtf8_append_iff, hbytes, ih, List.forall_mem_cons, and_assoc]

theorem isUtf8_serializeItems_iff
    (hbytes : ∀ i rest, IsUtf8 (bytes i ++ rest) ↔ sep i ∧ IsUtf8 rest) (nesting : List Bool)
    (opening close : Char) (is : List ι) :
    IsUtf8 (serializeItems nesting opening close (is.map bytes)) ↔ ∀ i ∈ is, sep i := by
  rw [serializeItems, Indentation, Indentation, ← utf8_append, List.append_assoc, List.append_assoc,
    List.append_assoc, isUtf8_append_iff, isUtf8_appendItems_iff hbytes, ← utf8_append,
    ← utf8_append]
  exact and_iff_left (isUtf8_utf8 _)

/-- The lines of an object or an array begin with a line break and spaces. -/
def nextLine (size : ℕ) : List Char := '\n' :: List.replicate size ' '

theorem serializeItems_eq {nesting : List Bool} {is : List ι}
    (hbytes : ∀ i ∈ is, bytes i = utf8 (token i)) (opening close : Char) :
    serializeItems nesting opening close (is.map bytes) =
      utf8 (bracketed (nextLine (nesting.length + 1)) (List.replicate nesting.length ' ') opening
        close (is.map token)) := by
  have hbehind : ∀ is : List ι, (∀ i ∈ is, bytes i = utf8 (token i)) →
      appendItems (utf8 (nextLine (nesting.length + 1))) false (is.map bytes) ++
        utf8 ('\n' :: (List.replicate nesting.length ' ' ++ [close])) =
      utf8 (behindItem (nextLine (nesting.length + 1)) (List.replicate nesting.length ' ') close
        (is.map token) []) := by
    intro is his
    induction is with
    | nil => rfl
    | cons i is ih =>
      rw [List.forall_mem_cons] at his
      rw [List.map_cons, List.map_cons, appendItems, behindItem, his.1, List.append_assoc,
        ih his.2]
      simp
  have hnext : utf8 ['\n'] ++ utf8 (List.replicate (nesting.length + 1) ' ') =
      utf8 (nextLine (nesting.length + 1)) := by rw [← utf8_append]; rfl
  have hend : utf8 ['\n'] ++ (utf8 (List.replicate nesting.length ' ') ++ utf8 [close]) =
      utf8 ('\n' :: (List.replicate nesting.length ' ' ++ [close])) := by
    rw [← utf8_append, ← utf8_append]
    rfl
  rw [serializeItems, Indentation, Indentation, hnext, List.append_assoc, List.append_assoc, List.append_assoc,
    hend]
  cases is with
  | nil => rw [List.map_nil, appendItems, List.nil_append, ← utf8_append]; rfl
  | cons i is =>
    rw [List.forall_mem_cons] at hbytes
    rw [List.map_cons, List.map_cons, appendItems, bracketed, hbytes.1, List.append_assoc,
      hbehind is hbytes.2]
    simp

/-- Items between brackets are a token exactly when each of them is. -/
theorem accepted_serializeItems_iff {item : Reader β} {a : ι → β} {good : ι → Prop}
    {opening close : Char} (hclose : isBlank close = false) (hcomma : close ≠ ',') {is : List ι}
    (hutf8 : ∀ i rest, IsUtf8 (bytes i ++ rest) ↔ sep i ∧ IsUtf8 rest)
    (hbytes : ∀ i, sep i → bytes i = utf8 (token i))
    (htakes : ∀ i ∈ is, Takes item close (token i) (a i) (good i)) (nesting : List Bool) :
    Accepted (readBracketed item opening close) (serializeItems nesting opening close (is.map bytes))
      (is.map a) ↔ ∀ i ∈ is, sep i ∧ good i := by
  have hindent : ∀ size, ∀ c ∈ List.replicate size ' ', isBlank c = true := by
    intro size c hc
    rw [(List.mem_replicate.mp hc).2]
    rfl
  have hnext : ∀ c ∈ nextLine (nesting.length + 1), isBlank c = true :=
    List.forall_mem_cons.mpr ⟨rfl, hindent _⟩
  have hread : readBracketed item opening close _ = _ ↔ _ :=
    readBracketed_iff hnext (hindent nesting.length) hclose hcomma htakes
  rw [forall₂_and]
  constructor
  · rintro ⟨tok, htok, haccept⟩
    have hsep := (isUtf8_serializeItems_iff hutf8 nesting opening close is).mp ⟨tok, htok⟩
    rw [serializeItems_eq fun i hi => hbytes i (hsep i hi)] at htok
    rw [← utf8_injective htok] at haccept
    exact ⟨hsep, hread.mp haccept⟩
  · rintro ⟨hsep, hgood⟩
    exact ⟨_, serializeItems_eq (fun i hi => hbytes i (hsep i hi)) opening close, hread.mpr hgood⟩

end Items

/-! ## Values and members -/

def Value.token : Value α → List Char
  | .string text => stringToken text
  | .other token _ => token

def Value.NoSeparator : Value α → Prop
  | .string text => ∀ c ∈ text, isSeparator c = false
  | .other _ _ => True

def Value.NoControl : Value α → Prop
  | .string text => text.any isControl = false
  | .other _ _ => True

theorem Value.plain_iff (v : Value α) : v.Plain ↔ v.NoSeparator ∧ v.NoControl := by
  cases v with
  | string text => exact JsonExport.plain_iff text
  | other token a => exact (and_true _).symm.to_iff

theorem Value.isUtf8_bytes_iff (v : Value α) (rest : List UInt8) :
    IsUtf8 (v.bytes ++ rest) ↔ v.NoSeparator ∧ IsUtf8 rest := by
  cases v with
  | string text => exact isUtf8_serializeString_iff text rest
  | other token a => rw [Value.bytes, isUtf8_append_iff, Value.NoSeparator, true_and]

theorem Value.bytes_eq {v : Value α} (h : v.NoSeparator) : v.bytes = utf8 v.token := by
  cases v with
  | string text => exact serializeString_utf8 h
  | other token a => rfl

/-- The tokens among the values are read by the parameter. -/
def Value.Read (other : Reader α) : Value α → Prop
  | .string _ => True
  | .other token a => OtherToken other token a

theorem Value.takes {other : Reader α} {v : Value α} (h : v.Read other) :
    Takes (readValue other) ']' v.token v.read v.NoControl := by
  cases v with
  | string text =>
    have hread : ∀ rest, readValue other (stringToken text ++ rest) =
        if text.any isControl then none else some (.inl text, rest) := by
      intro rest
      have hstring := readString_token text rest
      rw [stringToken, List.cons_append] at hstring ⊢
      rw [readValue, ← readString, hstring]
      cases text.any isControl <;> rfl
    refine ⟨⟨_, _, rfl, rfl, by decide⟩, fun hgood rest _ => ?_, fun hbad rest _ => ?_⟩
    · exact (hread rest).trans (if_neg (by simp [show text.any isControl = false from hgood]))
    · exact (hread rest).trans (if_pos ((Bool.not_eq_false _).mp hbad))
  | other token a =>
    obtain ⟨c, tail, rfl, hblank, hquote, hclose⟩ := h.starts
    refine ⟨⟨c, tail, rfl, hblank, hclose⟩, fun _ rest hrest => ?_, fun hbad => absurd trivial hbad⟩
    have hread := h.read rest hrest
    rw [Value.token, List.cons_append] at *
    rw [readValue_of_ne hquote, hread]
    rfl

/-- A member that is written has a key and a value. -/
abbrev Member (α : Type) := List Char × Value α

def Member.bytes (m : Member α) : List UInt8 :=
  SerializeString (utf8 m.1) ++ utf8 [':', ' '] ++ m.2.bytes

def Member.token (m : Member α) : List Char := stringToken m.1 ++ ':' :: ' ' :: m.2.token

def Member.read (m : Member α) : List Char × (List Char ⊕ α) := (m.1, m.2.read)

def Member.NoSeparator (m : Member α) : Prop :=
  (∀ c ∈ m.1, isSeparator c = false) ∧ m.2.NoSeparator

def Member.NoControl (m : Member α) : Prop := m.1.any isControl = false ∧ m.2.NoControl

def Member.Plain (m : Member α) : Prop := JsonExport.Plain m.1 ∧ m.2.Plain

theorem Member.plain_iff (m : Member α) :
    Member.Plain m ↔ Member.NoSeparator m ∧ Member.NoControl m := by
  rw [Member.Plain, JsonExport.plain_iff, Value.plain_iff, Member.NoSeparator, Member.NoControl]
  tauto

theorem Member.isUtf8_bytes_iff (m : Member α) (rest : List UInt8) :
    IsUtf8 (Member.bytes m ++ rest) ↔ Member.NoSeparator m ∧ IsUtf8 rest := by
  rw [Member.bytes, List.append_assoc, List.append_assoc, isUtf8_serializeString_iff,
    isUtf8_append_iff, Value.isUtf8_bytes_iff, Member.NoSeparator, and_assoc]

theorem Member.bytes_eq {m : Member α} (h : Member.NoSeparator m) :
    Member.bytes m = utf8 (Member.token m) := by
  rw [Member.bytes, serializeString_utf8 h.1, Value.bytes_eq h.2, Member.token, ← utf8_append,
    ← utf8_append]
  simp

theorem Member.takes {other : Reader α} {m : Member α} (h : m.2.Read other) :
    Takes (readMember (readValue other)) '}' (Member.token m) (Member.read m)
      (Member.NoControl m) := by
  have hvalue := Value.takes h
  have hread : ∀ rest, readMember (readValue other) (Member.token m ++ rest) =
      if m.1.any isControl then none else
        (readValue other (m.2.token ++ rest)).map fun (a, rest) => ((m.1, a), rest) := by
    intro rest
    obtain ⟨-, -, hblanks, -⟩ := hvalue.skipBlanks_token rest
    have hskip : skipBlanks (' ' :: (m.2.token ++ rest)) = m.2.token ++ rest :=
      (@skipBlanks_append [' '] (by simp [isBlank]) _).trans hblanks
    rw [Member.token, List.append_assoc, readMember, readString_token]
    cases m.1.any isControl with
    | true => rfl
    | false =>
      simp only [Bool.false_eq_true, if_false, List.cons_append]
      rw [skipBlanks_cons_of_not (by decide)]
      change Option.map _ (readValue other (skipBlanks (' ' :: (m.2.token ++ rest)))) = _
      rw [hskip]
  refine ⟨⟨_, _, rfl, rfl, by decide⟩, fun hgood rest hrest => ?_, fun hbad rest hrest => ?_⟩
  · rw [hread, hgood.1, hvalue.takes hgood.2 rest hrest]
    rfl
  · rw [hread]
    cases hkey : m.1.any isControl with
    | true => rfl
    | false =>
      rw [hvalue.refuses (fun hgood => hbad ⟨hkey, hgood⟩) rest hrest]
      rfl

/-! ## The export -/

/-- What `SerializeObject` is given: an empty value is one that is left out. -/
def serialized (members : List (List Char × Option (Value α))) : List (List UInt8 × List UInt8) :=
  members.map fun m => (utf8 m.1, (m.2.map Value.bytes).getD [])

def written (members : List (List Char × Option (Value α))) : List (Member α) :=
  members.filterMap fun m => m.2.map fun v => (m.1, v)

theorem Value.bytes_ne_nil {other : Reader α} {v : Value α} (h : v.Read other) : v.bytes ≠ [] := by
  cases v with
  | string text => simp [Value.bytes, SerializeString, utf8EncodeChar_ne_nil]
  | other token a =>
    obtain ⟨c, tail, rfl, -⟩ := h.starts
    simp [Value.bytes, utf8EncodeChar_ne_nil]

theorem serializeObject_serialized {other : Reader α}
    {members : List (List Char × Option (Value α))}
    (hmembers : ∀ m ∈ members, ∀ v ∈ m.2, v.Read other) (nesting : List Bool) :
    SerializeObject nesting (serialized members) =
      serializeItems nesting '{' '}' ((written members).map Member.bytes) := by
  rw [SerializeObject]
  congr 1
  induction members with
  | nil => rfl
  | cons m members ih =>
    rw [List.forall_mem_cons] at hmembers
    obtain ⟨key, value⟩ := m
    cases value with
    | none => simpa [serialized, written] using ih hmembers.2
    | some v =>
      have hne : v.bytes ≠ [] := Value.bytes_ne_nil (hmembers.1 v rfl)
      simpa [serialized, written, hne, Member.bytes] using ih hmembers.2

theorem accepted_object_iff {other : Reader α} {members : List (List Char × Option (Value α))}
    (hmembers : ∀ m ∈ members, ∀ v ∈ m.2, v.Read other) (nesting : List Bool) :
    Accepted (readObject (readValue other)) (SerializeObject nesting (serialized members))
      ((written members).map Member.read) ↔ ∀ m ∈ written members, Member.Plain m := by
  have hread : ∀ m ∈ written members, m.2.Read other := by
    intro m hm
    obtain ⟨⟨key, value⟩, hmem, hvalue⟩ := List.mem_filterMap.mp hm
    obtain ⟨v, hv, rfl⟩ := Option.map_eq_some_iff.mp hvalue
    exact hmembers _ hmem v hv
  rw [serializeObject_serialized hmembers, readObject, accepted_serializeItems_iff (by decide)
    (by decide) Member.isUtf8_bytes_iff (fun _ => Member.bytes_eq)
    fun m hm => Member.takes (hread m hm)]
  exact forall₂_congr fun m _ => (Member.plain_iff m).symm

theorem accepted_array_iff {other : Reader α} {values : List (Value α)}
    (hvalues : ∀ v ∈ values, v.Read other) (nesting : List Bool) :
    Accepted (readArray (readValue other)) (SerializeArray nesting (values.map Value.bytes))
      (values.map Value.read) ↔ ∀ v ∈ values, v.Plain := by
  rw [SerializeArray, readArray, accepted_serializeItems_iff (by decide) (by decide)
    Value.isUtf8_bytes_iff (fun _ => Value.bytes_eq) fun v hv => Value.takes (hvalues v hv)]
  exact forall₂_congr fun v _ => v.plain_iff.symm

/-- Strings, and keys and values of objects and arrays, are tokens for their texts exactly when the
texts are plain. -/
theorem json_strings_valid_iff (other : Reader α) :
    (∀ text, Accepted readString (SerializeString (utf8 text)) text ↔ Plain text) ∧
      (∀ nesting (members : List (List Char × Option (Value α))),
        (∀ m ∈ members, ∀ v ∈ m.2, v.Read other) →
          (Accepted (readObject (readValue other)) (SerializeObject nesting (serialized members))
            ((written members).map Member.read) ↔ ∀ m ∈ written members, Member.Plain m)) ∧
      ∀ nesting (values : List (Value α)), (∀ v ∈ values, v.Read other) →
        (Accepted (readArray (readValue other)) (SerializeArray nesting (values.map Value.bytes))
          (values.map Value.read) ↔ ∀ v ∈ values, v.Plain) :=
  ⟨accepted_string_iff, fun nesting _ hmembers => accepted_object_iff hmembers nesting,
    fun nesting _ hvalues => accepted_array_iff hvalues nesting⟩

/-- Reads `null`. -/
def readNull : Reader Unit
  | 'n' :: 'u' :: 'l' :: 'l' :: rest => some ((), rest)
  | _ => none

theorem readNull_null : Value.Read readNull (.other "null".toList ()) :=
  ⟨⟨'n', "ull".toList, rfl, rfl, by decide, by decide⟩, fun _ _ => rfl⟩

theorem json_strings_valid_null :
    Accepted (readObject (readValue readNull))
        (SerializeObject [] (serialized [(['a'], some (.other "null".toList ())),
          (['b'], none), (['c', '\n'], some (.string ['"', 'é']))]))
        [(['a'], .inr ()), (['c', '\n'], .inl ['"', 'é'])] ∧
      ¬Accepted (readArray (readValue readNull))
        (SerializeArray [] (([.string ['\x01']] : List (Value Unit)).map Value.bytes))
        [.inl ['\x01']] := by
  have hvalid := json_strings_valid_iff readNull
  constructor
  · refine (hvalid.2.1 [] [(['a'], some (.other "null".toList ())), (['b'], none),
      (['c', '\n'], some (.string ['"', 'é']))] ?_).mpr ?_
    · simpa [Value.Read] using readNull_null
    · simp [written, Member.Plain, Plain, Value.Plain, isSeparator, isControl, lineSeparator,
        paragraphSeparator]
  · refine fun h => absurd ((hvalid.2.2 [] [.string ['\x01']] (by simp [Value.Read])).mp h) ?_
    simp [Value.Plain, Plain, isControl]

/-- The text of one control character, and the text of one line separator. -/
theorem json_strings_not_valid :
    ¬Accepted readString (SerializeString (utf8 ['\x01'])) ['\x01'] ∧
      ¬Accepted readString (SerializeString (utf8 ['\u2028'])) ['\u2028'] := by
  rw [accepted_string_iff, accepted_string_iff]
  constructor
  · simp [Plain, isControl]
  · simp [Plain, isSeparator, lineSeparator]

end Bettergram.Export.Output.JsonExport
