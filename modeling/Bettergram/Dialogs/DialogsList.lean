import Bettergram.Foundation.LinkedList

/-! # The list of dialogs

The rows are linked in the order they are shown in, each with its position, and
one row without a key stands behind them. What was looked up last is kept.
-/

namespace Bettergram.Dialogs
open Foundation

inductive SortMode
  | Date
  | Name
  | Add
  deriving DecidableEq

/-- The row that `_last` owns and `_end` points to. -/
def last : ℕ := 0

/-- A `nullptr` is `none`; so is what an operation gives that follows one, or a deleted row. -/
structure DialogsList (K : Type) where
  nodes : Nodes ℕ
  key : ℕ → Option K
  pos : ℕ → ℤ
  begin : Option ℕ
  sortMode : SortMode
  count : ℕ
  rowByKey : K → Option ℕ
  current : Option ℕ
  /-- What the next row is allocated at. -/
  fresh : ℕ

namespace DialogsList

variable {K : Type}

def new (sortMode : SortMode) : DialogsList K where
  nodes := ⟨fun _ => none, fun _ => none, fun r => r = last⟩
  key _ := none
  pos _ := 0
  begin := some last
  sortMode := sortMode
  count := 0
  rowByKey _ := none
  current := some last
  fresh := last + 1

def isEmpty (s : DialogsList K) : Prop := s.count = 0

instance (s : DialogsList K) : Decidable s.isEmpty := inferInstanceAs (Decidable (_ = _))

def addPos (r : ℕ) (d : ℤ) (s : DialogsList K) : DialogsList K :=
  { s with pos := Function.update s.pos r (s.pos r + d) }

/-- More rounds than any loop over the rows makes; a loop that needs more does not end. -/
def rounds (s : DialogsList K) : ℕ := s.count + 2

/-! ## Lookups -/

def goBack (pos : ℤ) (s : DialogsList K) : ℕ → ℕ → Option ℕ
  | 0, _ => none
  | rounds + 1, current =>
    if pos < s.pos current ∧ some current ≠ s.begin then
      (s.nodes.follow (s.nodes.prev current)).bind (goBack pos s rounds)
    else some current

def goForward (pos : ℤ) (s : DialogsList K) : ℕ → ℕ → Option ℕ
  | 0, _ => none
  | rounds + 1, current =>
    if s.pos current + 1 ≤ pos ∧ s.nodes.next current ≠ some last then
      (s.nodes.follow (s.nodes.next current)).bind (goForward pos s rounds)
    else some current

/-- The position at a height, for rows of one height. -/
def posAtY (y h : ℤ) : ℤ := if 0 < y then y / h else 0

def adjustCurrent (y h : ℤ) (s : DialogsList K) : Option (DialogsList K) :=
  if s.isEmpty then some s
  else do
    let current ← s.nodes.follow s.current
    let current ← s.goBack (posAtY y h) s.rounds current
    let current ← s.goForward (posAtY y h) s.rounds current
    some { s with current := some current }

def rowAtY (y h : ℤ) (s : DialogsList K) : Option (Option ℕ × DialogsList K) := do
  let s ← s.adjustCurrent y h
  if s.current = some last then some (none, s)
  else
    let i ← s.nodes.follow s.current
    some (if s.pos i ≠ posAtY y h then none else some i, s)

/-! ## Changes -/

/-- Writes to what is next to the row; that has to be there. -/
def remove (row : ℕ) (s : DialogsList K) : Option (DialogsList K) := do
  let next ← s.nodes.follow (s.nodes.next row)
  let nodes ← s.nodes.unlink row
  some { s with
    nodes := nodes
    begin := if s.nodes.prev row = none then some next else s.begin }

/-- The loop that makes way in front of `updateTill` and what is behind it. -/
def moveUp (row : ℕ) (updateTill : Option ℕ) : ℕ → ℕ → DialogsList K → Option (DialogsList K)
  | 0, _, _ => none
  | rounds + 1, n, s =>
    if some n = updateTill then some s
    else do
      let next ← s.nodes.follow (s.nodes.next n)
      moveUp row updateTill rounds next ((s.addPos next 1).addPos row (-1))

def insertBefore (row before : ℕ) (s : DialogsList K) : Option (Bool × DialogsList K) :=
  if row = before then some (false, s)
  else do
    let s := if s.current = some row then { s with current := s.nodes.prev row } else s
    let updateTill := s.nodes.prev row
    let s ← s.remove row
    let nodes ← s.nodes.linkBefore row before
    let s := { s with
      nodes := nodes
      begin := if nodes.prev row = none then some row else s.begin }
    let s ← moveUp row updateTill s.rounds row s
    some (true, s)

/-- The loop that closes the gap from `n` up to the row. -/
def moveDown (row : ℕ) : ℕ → Option ℕ → DialogsList K → Option (DialogsList K)
  | 0, _, _ => none
  | rounds + 1, n, s =>
    if n = some row then some s
    else do
      let n ← s.nodes.follow n
      moveDown row rounds (s.nodes.next n) ((s.addPos n (-1)).addPos row 1)

def insertAfter (row after : ℕ) (s : DialogsList K) : Option (Bool × DialogsList K) :=
  if row = after then some (false, s)
  else do
    let s := if s.current = some row then { s with current := s.nodes.next row } else s
    let updateFrom := s.nodes.next row
    let s ← s.remove row
    let _ ← s.nodes.follow (s.nodes.next after)
    let nodes ← s.nodes.linkAfter row after
    let s ← moveDown row s.rounds updateFrom { s with nodes := nodes }
    some (true, s)

/-- A test of the key of a row. -/
def testKey (s : DialogsList K) (test : K → Bool) (r : ℕ) : Bool := (s.key r).any test

/-- `while (change->_prev && test(change->_prev)) change = change->_prev` -/
def backWhile (test : K → Bool) (change : ℕ) (s : DialogsList K) : Option ℕ :=
  s.nodes.walk s.nodes.prev none (s.testKey test) s.rounds change

/-- `while (change->_next != _end && test(change->_next)) change = change->_next` -/
def forwardWhile (test : K → Bool) (change : ℕ) (s : DialogsList K) : Option ℕ :=
  s.nodes.walk s.nodes.next (some last) (s.testKey test) s.rounds change

/-- Moves a row back while `less` holds of what is before it, or else forward while `more` holds of
what is behind it. -/
def moveWhile (less more : K → Bool) (row : ℕ) (s : DialogsList K) : Option (DialogsList K) := do
  let change ← s.backWhile less row
  let (moved, s) ← s.insertBefore row change
  if moved then some s
  else do
    let change ← s.forwardWhile more change
    let (_, s) ← s.insertAfter row change
    some s

def sortKeyOf (sortKey : K → ℕ) (s : DialogsList K) (row : ℕ) : ℕ := ((s.key row).map sortKey).getD 0

/-- The row in front of which a row belongs, or the row itself. -/
def changeBefore (sortKey : K → ℕ) (row begin : ℕ) (s : DialogsList K) : Option ℕ :=
  let own := s.sortKeyOf sortKey row
  if row ≠ begin ∧ s.sortKeyOf sortKey begin < own then some begin
  else s.backWhile (fun key => sortKey key < own) row

/-- The row behind which a row belongs, or the row itself. -/
def changeAfter (sortKey : K → ℕ) (row : ℕ) (s : DialogsList K) : Option ℕ :=
  let own := s.sortKeyOf sortKey row
  let onward := s.forwardWhile (fun key => own < sortKey key) row
  if s.nodes.next row = some last then onward
  else do
    let back ← s.nodes.follow (s.nodes.prev last)
    if own < s.sortKeyOf sortKey back then some back else onward

def adjustByPos (sortKey : K → ℕ) (row : ℕ) (s : DialogsList K) : Option (DialogsList K) :=
  if s.sortMode ≠ .Date ∨ s.begin = none then some s
  else do
    let begin ← s.nodes.follow s.begin
    let change ← s.changeBefore sortKey row begin
    let (moved, s) ← s.insertBefore row change
    if moved then some s
    else do
      -- the row was not moved, so the change is the row
      let change ← s.changeAfter sortKey change
      let (_, s) ← s.insertAfter row change
      some s

/-- Makes a row the one behind the last of the others. -/
def linkLast (result : ℕ) (s : DialogsList K) : Option (DialogsList K) :=
  if s.begin = some last then some { s with begin := some result, current := some result }
  else do
    let before ← s.nodes.follow (s.nodes.prev last)
    some { s with nodes := s.nodes.setNext before (some result) }

variable [DecidableEq K]

/-- `_rowByKey.emplace`, which leaves a key that is there as it is. -/
def emplaceRow (key : K) (result : ℕ) (s : DialogsList K) : K → Option ℕ :=
  if s.rowByKey key = none then Function.update s.rowByKey key (some result) else s.rowByKey

def addToEnd (sortKey : K → ℕ) (key : K) (s : DialogsList K) : Option (ℕ × DialogsList K) := do
  let result := s.fresh
  let nodes := { s.nodes with alive := Function.update s.nodes.alive result true }
  let s := { s with
    nodes := (nodes.setPrev result (s.nodes.prev last)).setNext result (some last)
    key := Function.update s.key result (some key)
    pos := Function.update s.pos result (s.pos last)
    fresh := result + 1 }
  let s ← (s.addPos last 1).linkLast result
  let s := { s with
    rowByKey := s.emplaceRow key result
    count := s.count + 1
    nodes := s.nodes.setPrev last (some result) }
  let s ← if s.sortMode = .Date then s.adjustByPos sortKey result else some s
  some (result, s)

/-- `compare` is that of the names the entries have in the chat list. -/
def adjustByName (compare : K → K → ℤ) (key : K) (s : DialogsList K) : Option (DialogsList K) :=
  if s.sortMode ≠ .Name then some s
  else
    match s.rowByKey key with
    | none => some s
    | some row => s.moveWhile (fun other => compare other key < 0) (fun other => compare other key < 0) row

def addByName (compare : K → K → ℤ) (key : K) (s : DialogsList K) : Option (DialogsList K) :=
  if s.sortMode ≠ .Name then some s
  else do
    let (row, s) ← s.addToEnd (fun _ => 0) key
    s.moveWhile (fun other => 0 < compare other key) (fun other => compare other key < 0) row

def moveToTop (key : K) (s : DialogsList K) : Option (DialogsList K) :=
  match s.rowByKey key with
  | none => some s
  | some row => do
    let begin ← s.nodes.follow s.begin
    let (_, s) ← s.insertBefore row begin
    some s

/-- The loop that lowers the positions up to the end. -/
def lowerPos : ℕ → Option ℕ → DialogsList K → Option (DialogsList K)
  | 0, _, _ => none
  | rounds + 1, change, s =>
    if change = some last then some s
    else do
      let row ← s.nodes.follow change
      lowerPos rounds (s.nodes.next row) (s.addPos row (-1))

def del (key : K) (s : DialogsList K) : Option (DialogsList K) :=
  match s.rowByKey key with
  | none => some s
  | some row => do
    let s := if s.current = some row then { s with current := s.nodes.next row } else s
    let s ← lowerPos s.rounds (s.nodes.next row) s
    let s := s.addPos last (-1)
    let s ← s.remove row
    some { s with
      nodes := { s.nodes with alive := Function.update s.nodes.alive row false }
      count := s.count - 1
      rowByKey := Function.update s.rowByKey key none }

/-- The loop of `clear`. -/
def deleteRows : ℕ → DialogsList K → Option (DialogsList K)
  | 0, _ => none
  | rounds + 1, s =>
    if s.begin = some last then some s
    else do
      let row ← s.nodes.follow s.begin
      deleteRows rounds { s with
        current := some row
        begin := s.nodes.next row
        nodes := { s.nodes with alive := Function.update s.nodes.alive row false } }

def clear (s : DialogsList K) : Option (DialogsList K) :=
  (deleteRows s.rounds s).map fun s =>
    { s with current := s.begin, rowByKey := fun _ => none, count := 0 }

end DialogsList

end Bettergram.Dialogs
