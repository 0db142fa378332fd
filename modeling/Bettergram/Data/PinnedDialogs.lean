import Mathlib.Data.List.Sort
import Mathlib.Data.List.Nodup
import Mathlib.Logic.Function.Basic

/-! # Pinned dialogs

Each entry caches its pinned index and saves it in the settings. The session
keeps the pinned keys twice: in the order in which they are shown, and with the
indexes they were loaded with, from which the order is made again at each load.
-/

namespace Bettergram.Data.PinnedDialogs

variable {κ : Type} [DecidableEq κ]

structure State (κ : Type) where
  settings : κ → ℕ
  loaded : κ → Bool
  pinnedIndex : κ → ℕ
  pinnedDialogsAndIndexes : List (ℕ × κ)
  pinnedDialogs : List κ

namespace State

def cachePinnedIndex (s : State κ) (key : κ) (index : ℕ) : State κ :=
  if s.pinnedIndex key ≠ index then
    { s with
      pinnedIndex := Function.update s.pinnedIndex key index
      settings := Function.update s.settings key index }
  else s

/-- `for (const auto &pinned : _pinnedDialogs)` with `cachePinnedIndex(++index)` -/
def renumber : ℕ → List κ → State κ → State κ
  | _, [], s => s
  | index, key :: keys, s => renumber (index + 1) keys (s.cachePinnedIndex key (index + 1))

def insertPinnedDialog (s : State κ) (key : κ) (pinnedIndex : ℕ) : State κ :=
  if pinnedIndex = 0 then s
  else if key ∈ s.pinnedDialogsAndIndexes.map Prod.snd then s
  else
    let sorted := (s.pinnedDialogsAndIndexes ++ [(pinnedIndex, key)]).insertionSort
      fun a b => a.1 ≤ b.1
    { s with pinnedDialogsAndIndexes := sorted, pinnedDialogs := sorted.map Prod.snd }

/-- The constructor of an entry, which reads its index from the settings. -/
def loadPinnedIndex (s : State κ) (key : κ) : State κ :=
  { s with
    loaded := Function.update s.loaded key true
    pinnedIndex := Function.update s.pinnedIndex key (s.settings key) }.insertPinnedDialog key
      (s.settings key)

/-- For a key that is pinned already `alreadyIndex` is negative, and the loop writes
in front of the first element. -/
def setIsPinned (s : State κ) (key : κ) (pinned : Bool) (countMax : ℕ) : Option (State κ) :=
  if pinned then
    if key ∈ s.pinnedDialogs then none
    else if countMax < s.pinnedDialogs.length + 1 then
      match s.pinnedDialogs ++ [key] with
      | [] => none
      | front :: rest =>
        some (renumber 0 rest { s.cachePinnedIndex front 0 with pinnedDialogs := rest })
    else
      some ({ s with pinnedDialogs := s.pinnedDialogs ++ [key] }.cachePinnedIndex key
        (s.pinnedDialogs.length + 1))
  else if key ∈ s.pinnedDialogs then
    some (renumber 0 (s.pinnedDialogs.erase key)
      { s.cachePinnedIndex key 0 with pinnedDialogs := s.pinnedDialogs.erase key })
  else some s

def reorderTwoPinnedDialogs (s : State κ) (key1 key2 : κ) : Option (State κ) :=
  let index1 := s.pinnedDialogs.idxOf key1
  let index2 := s.pinnedDialogs.idxOf key2
  if index1 < s.pinnedDialogs.length ∧ index2 < s.pinnedDialogs.length ∧ index1 ≠ index2 then
    some (({ s with pinnedDialogs := (s.pinnedDialogs.set index1 key2).set index2 key1
      }.cachePinnedIndex key1 (index2 + 1)).cachePinnedIndex key2 (index1 + 1))
  else none

end State

inductive Event (κ : Type)
  | load (key : κ)
  | setPinned (key : κ) (pinned : Bool) (countMax : ℕ)
  | reorder (key1 key2 : κ)

/-- An entry is created once, and only a key of an entry can be pinned. -/
def step (s : State κ) : Event κ → Option (State κ)
  | .load key => if s.loaded key then none else some (s.loadPinnedIndex key)
  | .setPinned key pinned countMax =>
    if s.loaded key then s.setIsPinned key pinned countMax else none
  | .reorder key1 key2 => s.reorderTwoPinnedDialogs key1 key2

def run (s : State κ) (events : List (Event κ)) : Option (State κ) := events.foldlM step s

/-! ## What should hold -/

/-- The order has the loaded keys with a positive index, and these grow along it. -/
structure Agrees (s : State κ) : Prop where
  nodup : s.pinnedDialogs.Nodup
  mem_iff : ∀ key, key ∈ s.pinnedDialogs ↔ s.loaded key = true ∧ 0 < s.pinnedIndex key
  increasing : s.pinnedDialogs.Pairwise fun a b => s.pinnedIndex a < s.pinnedIndex b

/-- The indexes are 1..n by position. -/
def Numbered (s : State κ) : Prop :=
  ∀ (i : ℕ) (h : i < s.pinnedDialogs.length), s.pinnedIndex s.pinnedDialogs[i] = i + 1

def AllLoaded (s : State κ) : Prop := ∀ key, 0 < s.settings key → s.loaded key = true

/-- What the state after an event should be. -/
def Right : Event κ → State κ → Prop
  | .load _, s => Agrees s
  | .setPinned _ _ _, s => Agrees s ∧ (AllLoaded s → Numbered s)
  | .reorder _ _, s => Agrees s ∧ (AllLoaded s → Numbered s)

/-- What may come in a state: an entry is created once, a key that is pinned or
unpinned has one, and two pinned keys are swapped. -/
def Possible (s : State κ) : Event κ → Prop
  | .load key => s.loaded key = false
  | .setPinned key _ _ => s.loaded key = true
  | .reorder key1 key2 => key1 ∈ s.pinnedDialogs ∧ key2 ∈ s.pinnedDialogs ∧ key1 ≠ key2

/-- When it is that: the condition on the state before the event. -/
def Meets (s : State κ) : Event κ → Prop
  | .load key =>
    s.loaded key = false ∧ (0 < s.settings key →
      s.pinnedDialogs = s.pinnedDialogsAndIndexes.map Prod.snd ∧
        ∀ entry ∈ s.pinnedDialogsAndIndexes, s.pinnedIndex entry.2 ≠ s.settings key ∧
          (entry.1 < s.settings key ↔ s.pinnedIndex entry.2 < s.settings key))
  | .setPinned key pinned countMax =>
    s.loaded key = true ∧
      if pinned then
        key ∉ s.pinnedDialogs ∧ (countMax ≤ s.pinnedDialogs.length ∨ Numbered s)
      else key ∈ s.pinnedDialogs ∨ ¬ AllLoaded s ∨ Numbered s
  | .reorder key1 key2 =>
    key1 ∈ s.pinnedDialogs ∧ key2 ∈ s.pinnedDialogs ∧ key1 ≠ key2 ∧
      ∀ (i : ℕ) (h : i < s.pinnedDialogs.length), s.pinnedDialogs[i] ≠ key1 →
        s.pinnedDialogs[i] ≠ key2 →
        (i < s.pinnedDialogs.idxOf key1 ∨ i < s.pinnedDialogs.idxOf key2 ∨ AllLoaded s) →
        s.pinnedIndex s.pinnedDialogs[i] = i + 1

/-- Before any entry is created; the saved indexes that are not 0 are distinct. -/
structure Fresh (s : State κ) : Prop where
  loaded : ∀ key, s.loaded key = false
  pinnedDialogs : s.pinnedDialogs = []
  pinnedDialogsAndIndexes : s.pinnedDialogsAndIndexes = []
  distinct : ∀ a b, 0 < s.settings a → s.settings a = s.settings b → a = b

end Bettergram.Data.PinnedDialogs
