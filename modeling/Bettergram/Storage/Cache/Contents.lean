import Bettergram.Storage.Cache.System

/-! # What the cache holds

The cache as a finite map of values that are not empty. While it runs, each
entry in memory stands for one value, whose file holds its bytes, and no two
entries share a file. Every call then does to the map what it is asked to do, or
falls short of it in one of a few ways when a file operation fails.
-/

namespace Bettergram.Storage.Cache
open Foundation DatabaseObject

abbrev Contents := Key → Option TaggedValue

namespace Contents

def empty : Contents := fun _ => none

/-- The value of a key; an empty one stands for no value. -/
def get (key : Key) (c : Contents) : TaggedValue := (c key).getD {}

def remove (key : Key) (c : Contents) : Contents := Function.update c key none

def put (key : Key) (value : TaggedValue) (c : Contents) : Contents :=
  Function.update c key (if value.bytes = [] then none else some value)

def putIfEmpty (key : Key) (value : TaggedValue) (c : Contents) : Contents :=
  if (c key).isSome then c else c.put key value

def copyIfEmpty (source target : Key) (c : Contents) : Contents :=
  c.putIfEmpty target (c.get source)

def moveIfEmpty (source target : Key) (c : Contents) : Contents :=
  if (c target).isSome ∨ c source = none then c
  else (c.remove source).put target (c.get source)

/-- Some keys may be gone. -/
def Less (c' c : Contents) : Prop := ∀ key, c' key = none ∨ c' key = c key

theorem Less.refl (c : Contents) : c.Less c := fun _ => .inr rfl

theorem Less.trans {c c₁ c₂ : Contents} (h₁ : c₂.Less c₁) (h : c₁.Less c) : c₂.Less c := by
  intro key
  rcases h₁ key with hnone | hsame
  · exact .inl hnone
  · rw [hsame]
    exact h key

theorem remove_less (key : Key) (c : Contents) : (c.remove key).Less c := by
  intro k
  by_cases hk : k = key
  · exact .inl (by rw [hk, remove, Function.update_self])
  · exact .inr (by rw [remove, Function.update_of_ne hk])

theorem put_of_ne {value : TaggedValue} (hne : value.bytes ≠ []) (key : Key) (c : Contents) :
    c.put key value = Function.update c key (some value) := by
  rw [put, if_neg hne]

theorem put_of_empty {value : TaggedValue} (hempty : value.bytes = []) (key : Key) (c : Contents) :
    c.put key value = c.remove key := by
  rw [put, if_pos hempty, remove]

theorem put_same {key : Key} {value : TaggedValue} {c : Contents} (hne : value.bytes ≠ [])
    (h : c key = some value) : c.put key value = c := by
  rw [put_of_ne hne, ← h, Function.update_eq_self]

end Contents

/-! ## How calls end -/

/-- How an attempt to put a value ends: the value is there, or the log did not take the record,
which is not reported, or its file was not written, and then the old value is gone as well. -/
inductive Puts (reliable : Prop) (c : Contents) (key : Key) (value : TaggedValue) :
    Error → Contents → Prop
  | stored : Puts reliable c key value Error.noError (c.put key value)
  | unlogged (hfailed : ¬reliable) : Puts reliable c key value Error.noError c
  | lost {error : Error} (hfailed : ¬reliable) (herror : error.type ≠ .none) :
      Puts reliable c key value error (c.remove key)

/-- What a call answers and does to the contents. A reliable call meets no failure. -/
inductive Effect (reliable : Prop) (c : Contents) : Call → Answer → Contents → Prop
  | put {env : Env} {key : Key} {value : TaggedValue} {error : Error} {c' : Contents}
      (h : Puts reliable c key value error c') :
      Effect reliable c (.put env key value) (.done error) c'
  | get {env : Env} {key : Key} : Effect reliable c (.get env key) (.value (c.get key)) c
  | remove {env : Env} {key : Key} {error : Error} (herror : reliable → error = Error.noError) :
      Effect reliable c (.remove env key) (.done error) (c.remove key)
  | putIfEmpty {env : Env} {key : Key} {value : TaggedValue} {error : Error} {c' : Contents}
      (hkey : c key = none) (h : Puts reliable c key value error c') :
      Effect reliable c (.putIfEmpty env key value) (.done error) c'
  | putOccupied {env : Env} {key : Key} {value : TaggedValue} (hkey : (c key).isSome = true) :
      Effect reliable c (.putIfEmpty env key value) (.done Error.noError) c
  | copyIfEmpty {getEnv putEnv : Env} {source target : Key} {error : Error} {c' : Contents}
      (htarget : c target = none) (h : Puts reliable c target (c.get source) error c') :
      Effect reliable c (.copyIfEmpty getEnv putEnv source target) (.done error) c'
  | copyOccupied {getEnv putEnv : Env} {source target : Key} (htarget : (c target).isSome = true) :
      Effect reliable c (.copyIfEmpty getEnv putEnv source target) (.done Error.noError) c
  | moveIfEmpty {env : Env} {source target : Key} :
      Effect reliable c (.moveIfEmpty env source target) (.done Error.noError)
        (c.moveIfEmpty source target)
  | moveLost {env : Env} {source target : Key} {error : Error} (hfailed : ¬reliable)
      (herror : error.type ≠ .none) :
      Effect reliable c (.moveIfEmpty env source target) (.done error) (c.remove source)
  | clearByTag {env : ℕ → Env} {tag : UInt8} {c' : Contents} (h : c'.Less c) :
      Effect reliable c (.clearByTag env tag) (.done Error.noError) c'
  | prune {clock : Int32} {env : ℕ → Env} {c' : Contents} (h : c'.Less c) :
      Effect reliable c (.prune clock env) .nothing c'
  | clearStaleChunk {env : ℕ → Env} {c' : Contents} (h : c'.Less c) :
      Effect reliable c (.clearStaleChunk env) .nothing c'
  | writeBundles {env : Env} : Effect reliable c (.writeBundles env) .nothing c
  | rehash {order : List (Sigma fun _ : Key => Entry)} : Effect reliable c (.rehash order) .nothing c

/-! ## The contents of a database -/

variable (xxh32 : List UInt8 → UInt32)

/-- The entry is that of the value, and its file holds the bytes. -/
structure Keeps (db : DatabaseObject) (value : TaggedValue) (entry : Entry) : Prop where
  bytes : value.bytes ≠ []
  tag : entry.tag = value.tag
  size : entry.size = value.bytes.length
  checksum : entry.checksum = xxh32 value.bytes
  data : db.readValueData entry.place entry.size = value.bytes

structure Holds (c : Contents) (db : DatabaseObject) : Prop where
  kept : ∀ key, Option.Rel (Keeps xxh32 db) (c key) (db.memory.map.lookup key)
  apart : ∀ key key' entry entry', db.memory.map.lookup key = some entry →
    db.memory.map.lookup key' = some entry' →
    db.placePath entry.place = db.placePath entry'.place → key = key'

variable {xxh32} {c : Contents} {db db' : DatabaseObject}

theorem readValueData_congr {place : PlaceId} (hpath : db'.path = db.path)
    (hfile : db'.disk (db.placePath place) = db.disk (db.placePath place)) (size : ℕ) :
    db'.readValueData place size = db.readValueData place size := by
  have hplace : db'.placePath place = db.placePath place := by rw [placePath, hpath, placePath]
  rw [readValueData, readValueData, hplace, hfile]

theorem readValueData_written {place : PlaceId} {padding : Block} {bytes : List UInt8}
    (hfile : db.disk (db.placePath place) = some (PlainFile.padded padding bytes)) :
    db.readValueData place bytes.length = bytes := by
  rw [readValueData, hfile]
  dsimp only
  rw [show (PlainFile.readWithPadding bytes.length
    { data := PlainFile.padded padding bytes, cursor := 0, mode := some .readOnly }) =
    (bytes, _) from Prod.ext (PlainFile.readWithPadding_padded padding bytes _) rfl]
  simp

theorem Keeps.congr {value : TaggedValue} {entry : Entry} (h : Keeps xxh32 db value entry)
    (hpath : db'.path = db.path)
    (hfile : db'.disk (db.placePath entry.place) = db.disk (db.placePath entry.place)) :
    Keeps xxh32 db' value entry :=
  ⟨h.bytes, h.tag, h.size, h.checksum, (readValueData_congr hpath hfile _).trans h.data⟩

theorem Keeps.touched {value : TaggedValue} {entry : Entry} (h : Keeps xxh32 db value entry)
    (useTime : UInt64) : Keeps xxh32 db value { entry with useTime } :=
  ⟨h.bytes, h.tag, h.size, h.checksum, h.data⟩

theorem Keeps.file_isSome {value : TaggedValue} {entry : Entry} (h : Keeps xxh32 db value entry) :
    (db.disk (db.placePath entry.place)).isSome = true := by
  by_contra hnone
  rw [Bool.not_eq_true, Option.isSome_eq_false_iff, Option.isNone_iff_eq_none] at hnone
  have hdata := h.data
  rw [readValueData, hnone] at hdata
  exact h.bytes hdata.symm

theorem Keeps.unique {value value' : TaggedValue} {entry : Entry} (h : Keeps xxh32 db value entry)
    (htag : entry.tag = value'.tag) (hdata : db.readValueData entry.place entry.size = value'.bytes) :
    value' = value := by
  have hbytes : value'.bytes = value.bytes := hdata.symm.trans h.data
  have htags : value'.tag = value.tag := htag.symm.trans h.tag
  cases value
  cases value'
  simp_all

namespace Holds

theorem lookup_none (h : Holds xxh32 c db) {key : Key} :
    c key = none ↔ db.memory.map.lookup key = none := by
  have hkept := h.kept key
  generalize c key = value at hkept ⊢
  generalize db.memory.map.lookup key = entry at hkept ⊢
  cases hkept <;> simp

theorem lookup_some (h : Holds xxh32 c db) {key : Key} {entry : Entry}
    (hlookup : db.memory.map.lookup key = some entry) :
    ∃ value, c key = some value ∧ Keeps xxh32 db value entry := by
  have hkept := h.kept key
  rw [hlookup] at hkept
  cases hc : c key with
  | none =>
    rw [hc] at hkept
    cases hkept
  | some value =>
    rw [hc] at hkept
    cases hkept with
    | some hkeeps => exact ⟨value, rfl, hkeeps⟩

/-- Only the use times changed. -/
theorem congr (h : Holds xxh32 c db) (hpath : db'.path = db.path) (hdisk : db'.disk = db.disk)
    (hlookup : ∀ key, (db'.memory.map.lookup key).map (Entry.touched 0) =
      (db.memory.map.lookup key).map (Entry.touched 0)) : Holds xxh32 c db' := by
  have hback : ∀ key entry', db'.memory.map.lookup key = some entry' →
      ∃ entry, db.memory.map.lookup key = some entry ∧
        entry' = { entry with useTime := entry'.useTime } := by
    intro key entry' hentry
    have hboth := hlookup key
    rw [hentry, Option.map_some, eq_comm, Option.map_eq_some_iff] at hboth
    obtain ⟨entry, hfound, htouched⟩ := hboth
    refine ⟨entry, hfound, ?_⟩
    cases entry
    cases entry'
    simpa [Entry.touched] using htouched.symm
  have hplace : ∀ place, db'.placePath place = db.placePath place := fun place => by
    rw [placePath, hpath, placePath]
  constructor
  · intro key
    cases hl : db'.memory.map.lookup key with
    | none =>
      have hnone := hlookup key
      rw [hl, Option.map_none, eq_comm, Option.map_eq_none_iff] at hnone
      rw [h.lookup_none.mpr hnone]
      exact .none
    | some entry' =>
      obtain ⟨entry, hfound, hsame⟩ := hback key entry' hl
      obtain ⟨value, hvalue, hkeeps⟩ := h.lookup_some hfound
      rw [hvalue, hsame]
      exact .some ((hkeeps.congr hpath (by rw [hdisk])).touched _)
  · intro key key' entry₁ entry₂ h₁ h₂ heq
    obtain ⟨e₁, hfound₁, hsame₁⟩ := hback key entry₁ h₁
    obtain ⟨e₂, hfound₂, hsame₂⟩ := hback key' entry₂ h₂
    rw [hsame₁, hsame₂, hplace, hplace] at heq
    exact h.apart key key' e₁ e₂ hfound₁ hfound₂ heq

/-- One key and at most its file changed. -/
theorem update (h : Holds xxh32 c db) (key : Key) {value : Option TaggedValue}
    (hpath : db'.path = db.path)
    (hlookup : ∀ k, k ≠ key → db'.memory.map.lookup k = db.memory.map.lookup k)
    (hdisk : ∀ k entry, k ≠ key → db.memory.map.lookup k = some entry →
      db'.disk (db.placePath entry.place) = db.disk (db.placePath entry.place))
    (hkey : Option.Rel (Keeps xxh32 db') value (db'.memory.map.lookup key))
    (hplace : ∀ k entry entry', k ≠ key → db.memory.map.lookup k = some entry →
      db'.memory.map.lookup key = some entry' →
      db.placePath entry.place ≠ db.placePath entry'.place) :
    Holds xxh32 (Function.update c key value) db' := by
  have hsame : ∀ place, db'.placePath place = db.placePath place := fun place => by
    rw [placePath, hpath, placePath]
  constructor
  · intro k
    by_cases hk : k = key
    · rw [hk, Function.update_self]
      exact hkey
    · rw [Function.update_of_ne hk, hlookup k hk]
      have hkept := h.kept k
      cases hl : db.memory.map.lookup k with
      | none =>
        rw [h.lookup_none.mpr hl]
        exact .none
      | some entry =>
        obtain ⟨value, hvalue, hkeeps⟩ := h.lookup_some hl
        rw [hvalue]
        exact .some (hkeeps.congr hpath (hdisk k entry hk hl))
  · intro k k' entry entry' hk hk' heq
    rw [hsame, hsame] at heq
    by_cases hfirst : k = key
    · by_cases hsecond : k' = key
      · rw [hfirst, hsecond]
      · subst hfirst
        rw [hlookup k' hsecond] at hk'
        exact absurd heq.symm (hplace k' entry' entry hsecond hk' hk)
    · rw [hlookup k hfirst] at hk
      by_cases hsecond : k' = key
      · subst hsecond
        exact absurd heq (hplace k entry entry' hfirst hk hk')
      · rw [hlookup k' hsecond] at hk'
        exact h.apart k k' entry entry' hk hk' heq

end Holds

end Bettergram.Storage.Cache
