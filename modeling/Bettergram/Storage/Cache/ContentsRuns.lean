import Bettergram.Storage.Cache.ContentsCalls

/-! # The cache is a map

Over a whole run, with the compactor at work in between, the cache answers as a
map does. When nothing fails and nothing is pruned it is exactly the map to which
every call does what it is asked for.
-/

namespace Bettergram.Storage.Cache
open Foundation DatabaseObject

variable {xxh32 : List UInt8 → UInt32} {c : Contents} {db db' : DatabaseObject}

def Call.Succeeds : Call → Prop
  | put env _ _ => env.Succeeds
  | get env _ => env.Succeeds
  | remove env _ => env.Succeeds
  | putIfEmpty env _ _ => env.Succeeds
  | copyIfEmpty getEnv putEnv _ _ => getEnv.Succeeds ∧ putEnv.Succeeds
  | moveIfEmpty env _ _ => env.Succeeds
  | clearByTag env _ => ∀ i, (env i).Succeeds
  | prune _ env => ∀ i, (env i).Succeeds
  | clearStaleChunk env => ∀ i, (env i).Succeeds
  | writeBundles env => env.Succeeds
  | rehash _ => True

theorem Call.Succeeds.limits {call : Call} (h : call.Succeeds) : call.Limits (· = none) := by
  cases call with
  | copyIfEmpty getEnv putEnv source target => exact ⟨h.1.limits, h.2.limits⟩
  | clearByTag env tag => exact fun i => (h i).limits
  | prune clock env => exact fun i => (h i).limits
  | clearStaleChunk env => exact fun i => (h i).limits
  | rehash order => trivial
  | _ => exact Env.Succeeds.limits h

namespace Holds

variable {settings : Settings} {reliable : Prop}

variable (settings) in
theorem removeKeys (h : Holds xxh32 c db) (keys : List Key) (env : ℕ → Env) :
    ∃ c' : Contents, c'.Less c ∧ Holds xxh32 c' (removeKeys settings keys env db) := by
  induction keys generalizing c db env with
  | nil => exact ⟨c, .refl c, h⟩
  | cons key keys ih =>
    obtain ⟨c', hless, hholds⟩ := ih (h.remove settings (env 0) key) fun i => env (i + 1)
    exact ⟨c', hless.trans (Contents.remove_less key c), hholds⟩

theorem setStale (h : Holds xxh32 c db) (stale : List Key) : Holds xxh32 c { db with stale } :=
  h.congr rfl rfl fun _ => rfl

theorem clearStaleChunk (h : Holds xxh32 c db) (env : ℕ → Env) :
    ∃ c' : Contents, c'.Less c ∧ Holds xxh32 c' (db.clearStaleChunk settings env) := by
  obtain ⟨c', hless, hholds⟩ := h.removeKeys settings
    (db.stale.drop (db.stale.length - min db.stale.length settings.staleRemoveChunk)) env
  exact ⟨c', hless, hholds.setStale _⟩

theorem prune (h : Holds xxh32 c db) (clock : Int32) (env : ℕ → Env) :
    ∃ c' : Contents, c'.Less c ∧ Holds xxh32 c' (db.prune settings clock env) := by
  unfold DatabaseObject.prune
  split
  · exact ⟨c, .refl c, h⟩
  · have hmap := (db.memory.collectTimeStale_frame settings clock).1
    change (db.collectStale settings clock).2.map = _ at hmap
    have hcollected : Holds xxh32 c { db with memory := (db.collectStale settings clock).2 } :=
      h.congr rfl rfl fun k => by rw [hmap]
    dsimp only
    split
    · unfold clearStaleNow
      split
      · exact ⟨c, .refl c, hcollected⟩
      · obtain ⟨c', hless, hholds⟩ := hcollected.removeKeys settings
          (db.collectStale settings clock).1 env
        exact ⟨c', hless, hholds.setStale _⟩
    · exact (hcollected.setStale _).clearStaleChunk env

theorem clearByTag (h : Holds xxh32 c db) (env : ℕ → Env) (tag : UInt8) :
    ∃ c' : Contents, c'.Less c ∧ Holds xxh32 c' (db.clearByTag settings env tag) := by
  unfold DatabaseObject.clearByTag
  dsimp only
  split
  · exact ⟨c, .refl c, h.setStale _⟩
  · exact (h.setStale _).clearStaleChunk env

/-- A call does to the contents what one of its effects says. -/
theorem perform (h : Holds xxh32 c db) (hsized : db.Sized settings) {call : Call} {answer : Answer}
    (hreliable : reliable → call.Succeeds ∧ db.binlog.mode.isSome = true)
    (hperform : db.perform settings xxh32 call = some (answer, db')) :
    ∃ c', Effect reliable c call answer c' ∧ Holds xxh32 c' db' := by
  cases call with
  | put env key value =>
    obtain ⟨⟨error, d⟩, hput, heq⟩ := Option.map_eq_some_iff.mp hperform
    cases heq
    obtain ⟨c', hputs, hholds⟩ := h.put hreliable hput
    exact ⟨c', .put hputs, hholds⟩
  | get env key =>
    obtain ⟨⟨value, d⟩, hget, heq⟩ := Option.map_eq_some_iff.mp hperform
    cases heq
    obtain ⟨d', hdone, hd⟩ := h.getWith hget
    cases hdone
    refine ⟨c, .get, ?_⟩
    rcases hd with rfl | rfl
    · exact h
    · exact h.recordEntryAccess
  | remove env key =>
    cases hperform
    refine ⟨_, .remove fun hr => ?_, h.remove settings env key⟩
    rcases remove_error settings db env key with hnone | ⟨-, hfailed⟩
    · exact hnone
    · rw [(hreliable hr).1.fileRemoved] at hfailed
      cases hfailed
  | putIfEmpty env key value =>
    obtain ⟨⟨error, d⟩, hput, heq⟩ := Option.map_eq_some_iff.mp hperform
    cases heq
    unfold DatabaseObject.putIfEmpty at hput
    split at hput
    · next hoccupied =>
      cases hput
      obtain ⟨entry, hentry⟩ := Option.isSome_iff_exists.mp hoccupied
      obtain ⟨value, hvalue, -⟩ := h.lookup_some hentry
      exact ⟨c, .putOccupied (by rw [hvalue]; rfl), h⟩
    · next hfree =>
      obtain ⟨c', hputs, hholds⟩ := h.put hreliable hput
      exact ⟨c', .putIfEmpty (h.lookup_none.mpr (by simpa using hfree)) hputs, hholds⟩
  | copyIfEmpty getEnv putEnv source target =>
    obtain ⟨⟨error, d⟩, hcopy, heq⟩ := Option.map_eq_some_iff.mp hperform
    cases heq
    unfold DatabaseObject.copyIfEmpty at hcopy
    split at hcopy
    · next hoccupied =>
      cases hcopy
      obtain ⟨entry, hentry⟩ := Option.isSome_iff_exists.mp hoccupied
      obtain ⟨value, hvalue, -⟩ := h.lookup_some hentry
      exact ⟨c, .copyOccupied (by rw [hvalue]; rfl), h⟩
    · next hfree =>
      obtain ⟨d', hput, hd⟩ := h.getWith hcopy
      obtain ⟨c', hputs, hholds⟩ := h.put (fun hr => ⟨(hreliable hr).1.2, (hreliable hr).2⟩) hput
      refine ⟨c', .copyIfEmpty (h.lookup_none.mpr (by simpa using hfree)) hputs, ?_⟩
      rcases hd with rfl | rfl
      · exact hholds
      · exact hholds.recordEntryAccess
  | moveIfEmpty env source target =>
    obtain ⟨⟨error, d⟩, hmove, heq⟩ := Option.map_eq_some_iff.mp hperform
    cases heq
    exact h.moveIfEmpty hsized hreliable hmove
  | clearByTag env tag =>
    cases hperform
    obtain ⟨c', hless, hholds⟩ := h.clearByTag env tag
    exact ⟨c', .clearByTag hless, hholds⟩
  | prune clock env =>
    cases hperform
    obtain ⟨c', hless, hholds⟩ := h.prune clock env
    exact ⟨c', .prune hless, hholds⟩
  | clearStaleChunk env =>
    cases hperform
    obtain ⟨c', hless, hholds⟩ := h.clearStaleChunk env
    exact ⟨c', .clearStaleChunk hless, hholds⟩
  | writeBundles env =>
    cases hperform
    obtain ⟨hpath, hdisk, hlookup⟩ := writeBundles_frame settings env db
    exact ⟨c, .writeBundles, h.congr hpath hdisk hlookup⟩
  | rehash order =>
    cases hperform
    have hsame : (db.rehash order).path = db.path ∧ (db.rehash order).disk = db.disk := by
      unfold DatabaseObject.rehash
      split <;> exact ⟨rfl, rfl⟩
    exact ⟨c, .rehash, h.congr hsame.1 hsame.2 fun k => by rw [lookup_rehash]⟩

end Holds

/-- The calls of a run with their answers. The compactor works in between. -/
inductive History (settings : Settings) (xxh32 : List UInt8 → UInt32) (allowed : Act → Prop)
    (start : System) : System → List (Call × Answer) → Prop
  | start : History settings xxh32 allowed start start []
  | call {s : System} {history : List (Call × Answer)} {call : Call} {answer : Answer}
      {db : DatabaseObject} (hs : History settings xxh32 allowed start s history)
      (hallowed : allowed (.call call))
      (h : s.database.perform settings xxh32 call = some (answer, db)) :
      History settings xxh32 allowed start { s with database := db } (history ++ [(call, answer)])
  | compactor {s s' : System} {history : List (Call × Answer)} {act : Act}
      (hs : History settings xxh32 allowed start s history) (hallowed : allowed act)
      (hact : ∀ call, act ≠ .call call) (h : s.perform settings xxh32 act = some s') :
      History settings xxh32 allowed start s' history

/-- The effects of one call after another. -/
inductive Effects (reliable : Prop) (c : Contents) : List (Call × Answer) → Contents → Prop
  | start : Effects reliable c [] c
  | next {history : List (Call × Answer)} {call : Call} {answer : Answer} {c₁ c₂ : Contents}
      (hs : Effects reliable c history c₁) (h : Effect reliable c₁ call answer c₂) :
      Effects reliable c (history ++ [(call, answer)]) c₂

/-- Everything the compactor does succeeds. -/
def Act.Succeeds : Act → Prop
  | .call made => made.Succeeds
  | .checkCompactor => True
  | .start granted => granted = true
  | .getManyRaw => True
  | .processValues granted => granted = true
  | .catchUp granted => granted = true
  | .compactorDone env => env = .granted

variable {settings : Settings} {reliable : Prop} {allowed : Act → Prop}

/-- The compactor leaves the values alone. -/
theorem Holds.compactor {s s' : System} {act : Act} (h : Holds xxh32 c s.database)
    (hact : ∀ call, act ≠ .call call) (hstep : s.perform settings xxh32 act = some s') :
    Holds xxh32 c s'.database := by
  cases System.perform_step hstep with
  | call call hperform => exact absurd rfl (hact call)
  | wait hc => exact h
  | check hc => exact h
  | work hc hwork => exact h
  | fail => exact h.congr rfl rfl fun _ => rfl
  | done env hc hstate =>
    obtain ⟨⟨length, hmemory⟩, -, -, -, hdisk, hpath⟩ :=
      compactorDone_frame settings env _ _ _ s.database
    exact h.congr hpath hdisk fun k => by rw [hmemory]; rfl

variable (settings) in
/-- A replaced log is open again. -/
theorem compactorDone_open {compact : List UInt8} {excess : ℤ} {till : ℕ}
    (hopen : db.binlog.mode.isSome = true) :
    (db.compactorDone settings .granted compact excess till).2.binlog.mode.isSome = true := by
  unfold compactorDone
  dsimp only
  split
  · exact hopen
  · split
    · exact hopen
    · split
      · exact hopen
      · rfl

theorem compactor_open {s s' : System} {act : Act} (hopen : s.database.binlog.mode.isSome = true)
    (hsucceeds : act.Succeeds) (hact : ∀ call, act ≠ .call call)
    (hstep : s.perform settings xxh32 act = some s') :
    s'.database.binlog.mode.isSome = true := by
  cases System.perform_step hstep with
  | call call hperform => exact absurd rfl (hact call)
  | wait hc => exact hopen
  | check hc => exact hopen
  | work hc hwork => exact hopen
  | fail => exact hopen
  | done env hc hstate =>
    obtain rfl : env = .granted := hsucceeds
    exact compactorDone_open settings hopen

theorem Steady.compactor {s s' : System} {act : Act} (h : Steady settings s.database)
    (hact : ∀ call, act ≠ .call call) (hstep : s.perform settings xxh32 act = some s') :
    Steady settings s'.database := by
  cases System.perform_step hstep with
  | call call hperform => exact absurd rfl (hact call)
  | wait hc => exact h
  | check hc => exact h
  | work hc hwork => exact h
  | fail =>
    refine h.of_frame ?_ ?_ ?_
    · exact ⟨0, by simp [System.compactorFail, compactorFail, Memory.addExcess]⟩
    · rfl
    · rfl
  | done env hc hstate =>
    obtain ⟨hmemory, hremoving, haccessed, -⟩ :=
      compactorDone_frame settings env _ _ _ s.database
    exact h.of_frame hmemory hremoving haccessed

/-- While nothing fails the log stays open. -/
theorem call_open (h : Steady settings db) (hopen : db.binlog.mode.isSome = true) {call : Call}
    {answer : Answer} (hsucceeds : call.Succeeds)
    (hperform : db.perform settings xxh32 call = some (answer, db')) :
    db'.binlog.mode.isSome = true := by
  have hleads := perform_leads hsucceeds.limits h.1 h.2 hperform
  rw [events_open hleads.events hopen]
  exact hopen

variable (reliable) in
/-- What a whole run keeps. -/
theorem History.kept {start s : System} {history : List (Call × Answer)}
    (h : History settings xxh32 allowed start s history)
    (hreliable : reliable → (∀ act, allowed act → act.Succeeds) ∧
      start.database.binlog.mode.isSome = true)
    (hsteady : Steady settings start.database) (hholds : Holds xxh32 c start.database) :
    Steady settings s.database ∧ (reliable → s.database.binlog.mode.isSome = true) ∧
      ∃ c', Effects reliable c history c' ∧ Holds xxh32 c' s.database := by
  induction h with
  | start => exact ⟨hsteady, fun hr => (hreliable hr).2, c, .start, hholds⟩
  | call hs hallowed hperform ih =>
    obtain ⟨hsteady, hopen, c₁, heffects, hholds⟩ := ih
    obtain ⟨c₂, heffect, hholds'⟩ := hholds.perform hsteady.2
      (fun hr => ⟨(hreliable hr).1 _ hallowed, hopen hr⟩) hperform
    exact ⟨(hsteady.perform hperform).2,
      fun hr => call_open hsteady (hopen hr) ((hreliable hr).1 _ hallowed) hperform,
      c₂, heffects.next heffect, hholds'⟩
  | compactor hs hallowed hact hstep ih =>
    obtain ⟨hsteady, hopen, c₁, heffects, hholds⟩ := ih
    exact ⟨hsteady.compactor hact hstep,
      fun hr => compactor_open (hopen hr) ((hreliable hr).1 _ hallowed) hact hstep,
      c₁, heffects, hholds.compactor hact hstep⟩

theorem History.of_run {start s : System} {history : List (Call × Answer)} {calls : List Call}
    {answers : List Answer} (h : History settings xxh32 allowed start s history)
    (hallowed : ∀ call ∈ calls, allowed (.call call))
    (hrun : s.database.run settings xxh32 calls = some (answers, db)) :
    History settings xxh32 allowed start { s with database := db }
      (history ++ calls.zip answers) := by
  induction calls generalizing s history answers with
  | nil =>
    cases hrun
    rwa [List.zip_nil_left, List.append_nil]
  | cons call calls ih =>
    obtain ⟨⟨answer, db₁⟩, hperform, hrun⟩ := Option.bind_eq_some_iff.mp hrun
    obtain ⟨⟨rest, db₂⟩, hrest, hrun⟩ := Option.bind_eq_some_iff.mp hrun
    cases hrun
    have hnext := ih (h.call (hallowed call (by simp)) hperform)
      (fun made hmade => hallowed made (by simp [hmade])) hrest
    rwa [List.append_assoc] at hnext

/-- Without entries nothing is held. -/
theorem Holds.empty (hmap : ∀ key, db.memory.map.lookup key = none) :
    Holds xxh32 .empty db where
  kept key := by
    rw [hmap]
    exact .none
  apart key key' entry entry' hentry := by
    rw [hmap] at hentry
    cases hentry

variable {files : DatabaseObject} {folder : List Char} {mode : File.Mode} {openEnv : OpenEnv}
  {s : System} {history : List (Call × Answer)}

/-- No log and no values yet. -/
def noFiles : DatabaseObject where
  binlog := { data := [], cursor := 0, mode := none }

/-- A value is put, moved and got. -/
def putMoveGet : List Call :=
  [.put (.granted 300 [Vector.replicate 7 1]) (sampleKey 1) ⟨[1, 2, 3], 1⟩,
    .moveIfEmpty (.granted 300 []) (sampleKey 1) (sampleKey 2),
    .get (.granted 300 []) (sampleKey 2)]

/-- The database in `noFiles`. -/
def noFilesOpened : DatabaseObject :=
  (noFiles.openBinlog .initial [] .readAppend (.granted 200)).2

set_option maxRecDepth 10000 in
theorem putMoveGet_run : ∃ db, noFilesOpened.run .initial (fun _ => 7) putMoveGet =
    some ([.done Error.noError, .done Error.noError, .value ⟨[1, 2, 3], 1⟩], db) := by
  have hanswers : (noFilesOpened.run .initial (fun _ => 7) putMoveGet).map Prod.fst =
      some [.done Error.noError, .done Error.noError, .value ⟨[1, 2, 3], 1⟩] := by decide
  obtain ⟨⟨answers, db⟩, hrun, rfl⟩ := Option.map_eq_some_iff.mp hanswers
  exact ⟨db, hrun⟩

set_option maxRecDepth 10000 in
theorem noFilesOpened_opened : noFiles.openBinlog .initial [] .readAppend (.granted 200) =
    (.success, noFilesOpened) := Prod.ext (by decide) rfl

theorem noFilesOpened_holds : Holds xxh32 .empty noFilesOpened :=
  .empty fun _ => rfl

/-- The calls that make room. -/
def Call.Prunes : Call → Prop
  | clearByTag _ _ => True
  | prune _ _ => True
  | clearStaleChunk _ => True
  | _ => False

namespace Contents

/-- What a call answers, and the contents after it. -/
def perform : Call → Contents → Answer × Contents
  | .put _ key value, c => (.done Error.noError, c.put key value)
  | .get _ key, c => (.value (c.get key), c)
  | .remove _ key, c => (.done Error.noError, c.remove key)
  | .putIfEmpty _ key value, c => (.done Error.noError, c.putIfEmpty key value)
  | .copyIfEmpty _ _ source target, c => (.done Error.noError, c.copyIfEmpty source target)
  | .moveIfEmpty _ source target, c => (.done Error.noError, c.moveIfEmpty source target)
  | .clearByTag _ _, c => (.done Error.noError, c)
  | .prune _ _, c => (.nothing, c)
  | .clearStaleChunk _, c => (.nothing, c)
  | .writeBundles _, c => (.nothing, c)
  | .rehash _, c => (.nothing, c)

def run : List Call → Contents → List Answer × Contents
  | [], c => ([], c)
  | call :: calls, c =>
    let made := c.perform call
    let rest := run calls made.2
    (made.1 :: rest.1, rest.2)

theorem run_append (calls : List Call) (call : Call) (c : Contents) :
    c.run (calls ++ [call]) =
      ((c.run calls).1 ++ [((c.run calls).2.perform call).1], ((c.run calls).2.perform call).2) := by
  induction calls generalizing c with
  | nil => rfl
  | cons first calls ih =>
    rw [List.cons_append, run, ih (c.perform first).2]
    rfl

end Contents

theorem Puts.eq_put {key : Key} {value : TaggedValue} {error : Error} {c' : Contents}
    (h : Puts True c key value error c') : error = Error.noError ∧ c' = c.put key value := by
  cases h with
  | stored => exact ⟨rfl, rfl⟩
  | unlogged hfailed => exact absurd trivial hfailed
  | lost hfailed => exact absurd trivial hfailed

/-- A call that meets no failure does what it is asked for. -/
theorem Effect.eq_perform {call : Call} {answer : Answer} {c' : Contents}
    (h : Effect True c call answer c') (hkeeps : ¬call.Prunes) : c.perform call = (answer, c') := by
  cases h with
  | put hputs =>
    obtain ⟨rfl, rfl⟩ := hputs.eq_put
    rfl
  | get => rfl
  | remove herror =>
    rw [herror trivial]
    rfl
  | putIfEmpty hkey hputs =>
    obtain ⟨rfl, rfl⟩ := hputs.eq_put
    rw [Contents.perform, Contents.putIfEmpty, if_neg (by simp [hkey])]
  | putOccupied hkey => rw [Contents.perform, Contents.putIfEmpty, if_pos hkey]
  | copyIfEmpty htarget hputs =>
    obtain ⟨rfl, rfl⟩ := hputs.eq_put
    rw [Contents.perform, Contents.copyIfEmpty, Contents.putIfEmpty, if_neg (by simp [htarget])]
  | copyOccupied htarget =>
    rw [Contents.perform, Contents.copyIfEmpty, Contents.putIfEmpty, if_pos htarget]
  | moveIfEmpty => rfl
  | moveLost hfailed => exact absurd trivial hfailed
  | clearByTag => exact absurd trivial hkeeps
  | prune => exact absurd trivial hkeeps
  | clearStaleChunk => exact absurd trivial hkeeps
  | writeBundles => rfl
  | rehash => rfl

theorem Effects.eq_run {c' : Contents} (h : Effects True c history c')
    (hkeeps : ∀ made ∈ history, ¬made.1.Prunes) :
    c.run (history.map Prod.fst) = (history.map Prod.snd, c') := by
  induction h with
  | start => rfl
  | next hs heffect ih =>
    rw [List.map_append, List.map_append, List.map_singleton, List.map_singleton, Contents.run_append,
      ih fun made hmade => hkeeps made (List.mem_append_left _ hmade),
      heffect.eq_perform (hkeeps _ (List.mem_append_right _ (List.mem_singleton_self _)))]

theorem Env.granted_succeeds (clock : Int32) (places : List PlaceId) :
    (Env.granted clock places).Succeeds :=
  ⟨⟨rfl, fun _ => rfl, fun _ => rfl⟩, rfl, fun _ => rfl, rfl⟩

theorem putMoveGet_succeeds : ∀ call ∈ putMoveGet, Act.Succeeds (.call call) := by
  simp only [putMoveGet, List.forall_mem_cons, List.not_mem_nil, false_implies, implies_true,
    and_true]
  exact ⟨Env.granted_succeeds _ _, Env.granted_succeeds _ _, Env.granted_succeeds _ _⟩

end Bettergram.Storage.Cache
