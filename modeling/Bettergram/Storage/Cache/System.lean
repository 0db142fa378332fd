import Bettergram.Storage.Cache.Calls
import Bettergram.Storage.Cache.LogRefinement

/-! # The database with its compactor

The steps of the compactor run between the calls of the database in any order.
A state is reachable when some files were opened and such steps led to it.
Closing makes files again, and any files may be opened.
-/

namespace Bettergram.Storage.Cache
open Foundation DatabaseObject

structure System where
  database : DatabaseObject
  compactor : Option CompactorObject := none

/-- A step of the compactor is told whether its file operations succeed. -/
inductive Act where
  | call (call : Call)
  | checkCompactor
  | start (granted : Bool)
  | getManyRaw
  | processValues (granted : Bool)
  | catchUp (granted : Bool)
  | compactorDone (env : DoneEnv)

namespace System

variable (settings : Settings) (xxh32 : List UInt8 → UInt32)

/-- `fail`: the compactor goes away. -/
def compactorFail (s : System) : System := { database := s.database.compactorFail }

def goOn (granted : Bool) (next : Option CompactorObject) (s : System) : System :=
  match granted, next with
  | true, some c => { s with compactor := some c }
  | _, _ => s.compactorFail

/-- `none` when the act does not belong to the state of the compactor. -/
def performCompactor (act : Act) (c : CompactorObject) (s : System) : Option System :=
  let log := s.database.binlog.data
  match act, c.state with
  | .start granted, .created => some (s.goOn granted (c.start settings log))
  | .getManyRaw, .asking keys =>
    some { s with compactor := some { c with state := .answered (s.database.getManyRaw keys) } }
  | .processValues granted, .answered values =>
    some (s.goOn granted (c.processValues settings log values))
  | .catchUp granted, .catchingUp start lastCatchUp =>
    some (s.goOn granted (c.finalize settings log start lastCatchUp))
  | .compactorDone env, .finished till =>
    some { database := (s.database.compactorDone settings env c.compact c.excessLength till).2 }
  | _, _ => none

def perform (act : Act) (s : System) : Option System :=
  match act with
  | .call call => (s.database.perform settings xxh32 call).map fun r => { s with database := r.2 }
  | .checkCompactor =>
    if s.compactor.isSome then some s
    else some { s with compactor := s.database.checkCompactor settings }
  | act => do (← s.compactor) |> fun c => s.performCompactor settings act c

end System

variable {settings : Settings} {xxh32 : List UInt8 → UInt32}

/-- What the compactor does on its own, given the log and the database. -/
inductive CompactorStep (settings : Settings) (db : DatabaseObject) :
    CompactorObject → CompactorObject → Prop
  | start {c c' : CompactorObject} (hstate : c.state = .created)
      (h : c.start settings db.binlog.data = some c') : CompactorStep settings db c c'
  | getManyRaw {c : CompactorObject} {keys : List Key} (hstate : c.state = .asking keys) :
      CompactorStep settings db c { c with state := .answered (db.getManyRaw keys) }
  | processValues {c c' : CompactorObject} {values : List Raw} (hstate : c.state = .answered values)
      (h : c.processValues settings db.binlog.data values = some c') : CompactorStep settings db c c'
  | catchUp {c c' : CompactorObject} {start lastCatchUp : ℕ}
      (hstate : c.state = .catchingUp start lastCatchUp)
      (h : c.finalize settings db.binlog.data start lastCatchUp = some c') :
      CompactorStep settings db c c'

/-- The kinds of steps of the system. -/
inductive SystemStep (settings : Settings) (xxh32 : List UInt8 → UInt32) (s : System) :
    Act → System → Prop
  | call (call : Call) {answer : Answer} {db : DatabaseObject}
      (h : s.database.perform settings xxh32 call = some (answer, db)) :
      SystemStep settings xxh32 s (.call call) { s with database := db }
  | wait (hc : s.compactor.isSome = true) : SystemStep settings xxh32 s .checkCompactor s
  | check (hc : s.compactor = none) :
      SystemStep settings xxh32 s .checkCompactor
        { s with compactor := s.database.checkCompactor settings }
  | work {act : Act} {c c' : CompactorObject} (hc : s.compactor = some c)
      (h : CompactorStep settings s.database c c') :
      SystemStep settings xxh32 s act { s with compactor := some c' }
  | fail {act : Act} : SystemStep settings xxh32 s act s.compactorFail
  | done {c : CompactorObject} {till : ℕ} (env : DoneEnv) (hc : s.compactor = some c)
      (hstate : c.state = .finished till) :
      SystemStep settings xxh32 s (.compactorDone env)
        { database := (s.database.compactorDone settings env c.compact c.excessLength till).2 }

namespace System

theorem goOn_step {act : Act} {s : System} {c : CompactorObject} {granted : Bool}
    {next : Option CompactorObject} (hc : s.compactor = some c)
    (h : ∀ c', next = some c' → CompactorStep settings s.database c c') :
    SystemStep settings xxh32 s act (s.goOn granted next) := by
  unfold goOn
  split
  · next c' => exact .work hc (h c' rfl)
  · exact .fail

theorem performCompactor_step {act : Act} {s s' : System} {c : CompactorObject}
    (hc : s.compactor = some c) (h : s.performCompactor settings act c = some s') :
    SystemStep settings xxh32 s act s' := by
  unfold performCompactor at h
  dsimp only at h
  split at h <;> cases h
  · next hstate => exact goOn_step hc fun c' hc' => .start hstate hc'
  · next hstate => exact .work hc (.getManyRaw hstate)
  · next hstate => exact goOn_step hc fun c' hc' => .processValues hstate hc'
  · next hstate => exact goOn_step hc fun c' hc' => .catchUp hstate hc'
  · next hstate => exact .done _ hc hstate

theorem perform_step {act : Act} {s s' : System} (h : s.perform settings xxh32 act = some s') :
    SystemStep settings xxh32 s act s' := by
  cases act with
  | call call =>
    obtain ⟨⟨answer, db⟩, hperform, rfl⟩ := Option.map_eq_some_iff.mp h
    exact .call call hperform
  | checkCompactor =>
    unfold perform at h
    dsimp only at h
    split at h
    · next hc =>
      cases h
      exact .wait hc
    · next hc =>
      cases h
      exact .check (by simpa using hc)
  | _ =>
    obtain ⟨c, hc, h⟩ := Option.bind_eq_some_iff.mp h
    exact performCompactor_step hc h

end System

/-! ## Reachable states -/

/-- `good` is asked of the files at every open, `allowed` of every step. -/
inductive Reachable (settings : Settings) (xxh32 : List UInt8 → UInt32)
    (good : File.Mode → DatabaseObject → Prop) (allowed : System → Act → Prop) : System → Prop
  | closed {files : DatabaseObject} (hcleared : files.Cleared) :
      Reachable settings xxh32 good allowed { database := files }
  | opened {files db : DatabaseObject} {folder : List Char} {mode : File.Mode} {env : OpenEnv}
      (hcleared : files.Cleared) (hmode : mode ≠ .read) (hgood : good mode files)
      (h : files.openBinlog settings folder mode env = (.success, db)) :
      Reachable settings xxh32 good allowed { database := db }
  | step {s s' : System} {act : Act} (hs : Reachable settings xxh32 good allowed s)
      (hallowed : allowed s act) (h : s.perform settings xxh32 act = some s') :
      Reachable settings xxh32 good allowed s'

variable {good : File.Mode → DatabaseObject → Prop} {allowed : System → Act → Prop}

namespace DatabaseObject

variable {db db' : DatabaseObject}

variable (settings) in
/-- Replacing the log leaves everything but the log and its excess alone. -/
theorem compactorDone_frame (env : DoneEnv) (compact : List UInt8) (excess : ℤ) (till : ℕ)
    (db : DatabaseObject) :
    let after := (db.compactorDone settings env compact excess till).2
    (∃ length : ℤ, after.memory = db.memory.addExcess length) ∧ after.removing = db.removing ∧
      after.accessed = db.accessed ∧ after.stale = db.stale ∧ after.disk = db.disk ∧
      after.path = db.path := by
  have hsame : ∃ length : ℤ, db.memory = db.memory.addExcess length :=
    ⟨0, by simp [Memory.addExcess]⟩
  unfold compactorDone
  dsimp only
  split
  · exact ⟨hsame, rfl, rfl, rfl, rfl, rfl⟩
  · split
    · exact ⟨hsame, rfl, rfl, rfl, rfl, rfl⟩
    · split
      · exact ⟨hsame, rfl, rfl, rfl, rfl, rfl⟩
      · split
        · exact ⟨hsame, rfl, rfl, rfl, rfl, rfl⟩
        · exact ⟨hsame, rfl, rfl, rfl, rfl, rfl⟩
        · split
          · exact ⟨hsame, rfl, rfl, rfl, rfl, rfl⟩
          · exact ⟨⟨_, rfl⟩, rfl, rfl, rfl, rfl, rfl⟩

theorem Cleared.memory (h : db.Cleared) :
    db.memory = {} ∧ db.removing = [] ∧ db.accessed = [] ∧ db.stale = [] := by
  rw [← show db.clearState = db from h]
  exact ⟨rfl, rfl, rfl, rfl⟩

end DatabaseObject

/-- An invariant of the database that events keep and that does not look at the log. -/
theorem Reachable.database_inv {P : DatabaseObject → Prop}
    (hclosed : ∀ files : DatabaseObject, files.Cleared → P files)
    (hopened : ∀ (files db : DatabaseObject) folder mode env, files.Cleared → mode ≠ .read →
      good mode files → files.openBinlog settings folder mode env = (.success, db) → P db)
    (hcall : ∀ (db db' : DatabaseObject) call answer, P db →
      db.perform settings xxh32 call = some (answer, db') → P db')
    (hframe : ∀ (db db' : DatabaseObject), (∃ length : ℤ, db'.memory = db.memory.addExcess length) →
      db'.removing = db.removing → db'.accessed = db.accessed → db'.stale = db.stale →
      db'.disk = db.disk → db'.path = db.path → P db → P db')
    {s : System} (h : Reachable settings xxh32 good allowed s) : P s.database := by
  induction h with
  | closed hcleared => exact hclosed _ hcleared
  | opened hcleared hmode hgood h => exact hopened _ _ _ _ _ hcleared hmode hgood h
  | @step s s' act hs hallowed h ih =>
    cases System.perform_step h with
    | call call hperform => exact hcall _ _ _ _ ih hperform
    | wait hc => exact ih
    | check hc => exact ih
    | work hc h => exact ih
    | fail =>
      exact hframe s.database _ ⟨0, by simp [System.compactorFail, DatabaseObject.compactorFail,
        Memory.addExcess]⟩ rfl rfl rfl rfl rfl ih
    | done env hc hstate =>
      obtain ⟨hmemory, hremoving, haccessed, hstale, hdisk, hpath⟩ :=
        compactorDone_frame settings env _ _ _ s.database
      exact hframe _ _ hmemory hremoving haccessed hstale hdisk hpath ih

/-- The bundles are not full and the sizes are valid. -/
def Steady (settings : Settings) (db : DatabaseObject) : Prop :=
  db.Bundled settings ∧ db.Sized settings

theorem Steady.cleared {files : DatabaseObject} (h : files.Cleared) : Steady settings files := by
  obtain ⟨hmemory, hremoving, haccessed, -⟩ := h.memory
  refine ⟨⟨?_, ?_⟩, fun {key e} he => ?_⟩
  · simp [hremoving, settings.maxBundledRecords_pos]
  · simp [haccessed, settings.maxBundledRecords_pos]
  · rw [hmemory] at he
    cases he

theorem Steady.opened {files db : DatabaseObject} {folder : List Char} {mode : File.Mode}
    {env : OpenEnv} (hcleared : files.Cleared) (hmode : mode ≠ .read)
    (h : files.openBinlog settings folder mode env = (.success, db)) : Steady settings db := by
  obtain ⟨head, fileMode, hvalid, -, hdb⟩ := openBinlog_found hcleared hmode h
  obtain ⟨-, -, -, -, -, -, -, -, -, -, hlookup, -, hremoving, haccessed⟩ :=
    readBinlog_headed hdb hvalid
  refine ⟨⟨?_, ?_⟩, sized_of_readEntry hlookup⟩
  · simp [hremoving, settings.maxBundledRecords_pos]
  · simp [haccessed, settings.maxBundledRecords_pos]

theorem Steady.of_frame {db db' : DatabaseObject}
    (hmemory : ∃ length : ℤ, db'.memory = db.memory.addExcess length)
    (hremoving : db'.removing = db.removing) (haccessed : db'.accessed = db.accessed)
    (h : Steady settings db) : Steady settings db' := by
  obtain ⟨length, hmemory⟩ := hmemory
  obtain ⟨⟨hr, ha⟩, hsized⟩ := h
  refine ⟨⟨hremoving ▸ hr, haccessed ▸ ha⟩, fun {key e} he => ?_⟩
  rw [hmemory] at he
  exact hsized he

/-- Any limits at all. -/
theorem Call.limits_any (call : Call) : call.Limits fun _ => True := by
  have henv : ∀ env : Env, env.Limits fun _ => True :=
    fun _ => ⟨trivial, fun _ => trivial, fun _ => trivial⟩
  cases call with
  | copyIfEmpty getEnv putEnv source target => exact ⟨henv _, henv _⟩
  | rehash order => trivial
  | clearByTag env tag => exact fun i => henv (env i)
  | prune clock env => exact fun i => henv (env i)
  | clearStaleChunk env => exact fun i => henv (env i)
  | _ => exact henv _

theorem Steady.perform {db db' : DatabaseObject} {call : Call} {answer : Answer}
    (h : Steady settings db) (hperform : db.perform settings xxh32 call = some (answer, db')) :
    Relation.ReflTransGen (Event settings fun _ => True) db db' ∧ Steady settings db' := by
  have hlead := perform_leads call.limits_any h.1 h.2 hperform
  exact ⟨hlead.events, hlead.bundled, Sized.events h.2 hlead.events⟩

theorem Reachable.steady {s : System} (h : Reachable settings xxh32 good allowed s) :
    Steady settings s.database :=
  h.database_inv (fun _ => .cleared) (fun _ _ _ _ _ hcleared hmode _ => .opened hcleared hmode)
    (fun _ _ _ _ h hperform => (h.perform hperform).2)
    (fun _ _ hmemory hremoving haccessed _ _ _ => .of_frame hmemory hremoving haccessed)

/-- An invariant that every event keeps. -/
theorem Reachable.event_inv {P : DatabaseObject → Prop}
    (hclosed : ∀ files : DatabaseObject, files.Cleared → P files)
    (hopened : ∀ (files db : DatabaseObject) folder mode env, files.Cleared → mode ≠ .read →
      good mode files → files.openBinlog settings folder mode env = (.success, db) → P db)
    (hevent : ∀ db db' : DatabaseObject, db.Sized settings →
      Event settings (fun _ => True) db db' → P db → P db')
    (hframe : ∀ (db db' : DatabaseObject), (∃ length : ℤ, db'.memory = db.memory.addExcess length) →
      db'.removing = db.removing → db'.accessed = db.accessed → db'.stale = db.stale →
      db'.disk = db.disk → db'.path = db.path → P db → P db')
    {s : System} (h : Reachable settings xxh32 good allowed s) : P s.database := by
  have hboth : Steady settings s.database ∧ P s.database := by
    refine h.database_inv (P := fun db => Steady settings db ∧ P db)
      (fun files hcleared => ⟨.cleared hcleared, hclosed files hcleared⟩)
      (fun files db folder mode env hcleared hmode hgood h =>
        ⟨.opened hcleared hmode h, hopened files db folder mode env hcleared hmode hgood h⟩)
      (fun db db' call answer h hperform => ?_)
      (fun db db' hmemory hremoving haccessed hstale hdisk hpath h =>
        ⟨.of_frame hmemory hremoving haccessed h.1,
          hframe db db' hmemory hremoving haccessed hstale hdisk hpath h.2⟩)
    obtain ⟨hevents, hsteady⟩ := h.1.perform hperform
    refine ⟨hsteady, ?_⟩
    have hkeep : db'.Sized settings ∧ P db' := by
      clear hperform hsteady
      induction hevents with
      | refl => exact ⟨h.1.2, h.2⟩
      | tail _ hstep ih => exact ⟨Sized.event ih.1 hstep, hevent _ _ ih.1 hstep ih.2⟩
    exact hkeep.2
  exact hboth.2

/-- An open and a run of calls. -/
theorem Reachable.run {files db db' : DatabaseObject} {folder : List Char} {mode : File.Mode}
    {env : OpenEnv} {calls : List Call} {answers : List Answer} (hcleared : files.Cleared)
    (hmode : mode ≠ .read) (hgood : good mode files)
    (hallowed : ∀ s, ∀ call ∈ calls, allowed s (.call call))
    (h : files.openBinlog settings folder mode env = (.success, db))
    (hrun : db.run settings xxh32 calls = some (answers, db')) :
    Reachable settings xxh32 good allowed { database := db' } := by
  have hstart : Reachable settings xxh32 good allowed { database := db } :=
    .opened hcleared hmode hgood h
  clear h
  induction calls generalizing db answers with
  | nil =>
    cases hrun
    exact hstart
  | cons call calls ih =>
    obtain ⟨⟨answer, db₁⟩, hperform, hrun⟩ := Option.bind_eq_some_iff.mp hrun
    obtain ⟨⟨rest, db₂⟩, hrest, hrun⟩ := Option.bind_eq_some_iff.mp hrun
    cases hrun
    refine ih (fun s c hc => hallowed s c (by simp [hc])) hrest
      (hstart.step (hallowed _ call (by simp)) ?_)
    simp only [System.perform, hperform, Option.map_some]

end Bettergram.Storage.Cache
