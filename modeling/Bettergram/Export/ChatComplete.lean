import Mathlib.Tactic.IntervalCases
import Bettergram.Export.ChatRuns

/-! # Complete exports

The counts of the splits come first; from then on each answer brings the end nearer. An export
that waits for nothing has handed over everything, unless a file could not be written.
-/

namespace Bettergram.Export
namespace ApiWrap

variable {Location Path Env : Type} {server : Server} {settings : Settings}
  {storage : Storage Location Path Env} {callbacks : Callbacks Location Path}

/-- The splits are being counted. -/
structure Counting (n : ℕ) (counts : List ℕ) (process : ChatProcess Location Path)
    (api : ApiWrap Location Path Env) : Prop where
  chatProcess : api.chatProcess = some process
  pending : api.pending = some (.count counts.length)
  lt : counts.length < n
  splits : process.info.splits.length = n
  length : process.info.messagesCountPerSplit.length = n
  counted : process.info.messagesCountPerSplit.take counts.length = counts
  localSplitIndex : process.localSplitIndex = 0
  largestIdPlusOne : process.largestIdPlusOne = 1
  noSlice : process.slice = none
  notLast : process.lastSlice = false
  slices : api.slices = []
  notDone : api.doneCalls = 0
  noErrors : api.ioErrors = 0

variable {n : ℕ} {counts : List ℕ} {process : ChatProcess Location Path}
  {api : ApiWrap Location Path Env}

/-- The counts with one more of them. -/
theorem take_set {counted : List ℕ} (hlt : counts.length < counted.length)
    (hcounted : counted.take counts.length = counts) (count : ℕ) :
    (counted.set counts.length count).take (counts.length + 1) = counts ++ [count] := by
  rw [List.take_add_one, List.take_set_of_le (le_refl _), hcounted,
    List.getElem?_set_self hlt]
  rfl

variable (settings storage server) in
theorem Counting.step (hcallbacks : Continues callbacks) (h : Counting n counts process api)
    (count : ℕ) :
    (∃ process', Counting n (counts ++ [count]) process'
      (step settings storage callbacks api (.counted count))) ∨
    (counts ++ [count]).length = n ∧ Between server (counts ++ [count])
      (ApiWrap.step settings storage callbacks api (.counted count)) (server.total n 0) := by
  have htake := take_set (by rw [h.length]; exact h.lt) h.counted count
  have hset : (process.info.messagesCountPerSplit.set counts.length count).length = n := by
    rw [List.length_set, h.length]
  simp only [ApiWrap.step, h.chatProcess, h.pending, messagesCountLoaded, h.splits,
    hcallbacks.start, if_true]
  by_cases hnext : counts.length + 1 < n
  · rw [if_pos hnext]
    refine .inl ⟨_, {
      chatProcess := rfl
      pending := by
        rw [List.length_append]
        rfl
      lt := by
        rw [List.length_append]
        exact hnext
      splits := h.splits
      length := hset
      counted := by
        rw [List.length_append]
        exact htake
      localSplitIndex := h.localSplitIndex
      largestIdPlusOne := h.largestIdPlusOne
      noSlice := h.noSlice
      notLast := h.notLast
      slices := h.slices
      notDone := h.notDone
      noErrors := h.noErrors }⟩
  · rw [if_neg hnext]
    have hlt := h.lt
    have hlength : (counts ++ [count]).length = n := by
      rw [List.length_append, List.length_singleton]
      omega
    have hall : process.info.messagesCountPerSplit.set counts.length count =
        counts ++ [count] := by
      rw [← htake, List.take_of_length_le (by omega)]
    refine .inr ⟨hlength, ?_⟩
    have hpos : 0 < (counts ++ [count]).length := by omega
    have hlater : server.later (counts ++ [count]) 0 = _ := Server.later_eq hpos
    have htotal : server.total n 0 = _ := Server.total_eq (by omega)
    have hrest : (server.rest (counts ++ [count]) 0 1).length ≤ _ := Server.length_rest_le _ _
    have hrequesting : Requesting server (counts ++ [count])
        { process with info := { process.info with
          messagesCountPerSplit := process.info.messagesCountPerSplit.set counts.length count } }
        api := {
      splits := h.splits.trans hlength.symm
      counted := hall
      index := by
        simp only [h.localSplitIndex]
        exact hpos
      notDone := h.notDone
      noErrors := h.noErrors
      noSlice := h.noSlice
      notLast := h.notLast
      conserved := by
        simp only [h.localSplitIndex, h.largestIdPlusOne, handed, h.slices]
        exact hlater.symm }
    have hrequest := requestsFrom_requestMessagesSlice settings storage hcallbacks _ _
      (Nat.zero_le _) hrequesting
    refine hrequest.mono ?_
    simp only [h.localSplitIndex, h.largestIdPlusOne, hlength]
    omega

def Event.count? : Event Location Path Env → Option ℕ
  | .counted count => some count
  | _ => none

/-- The counts that the events bring. -/
def countsOf (events : List (Event Location Path Env)) : List ℕ := events.filterMap Event.count?

variable (settings storage) in
theorem run_append (callbacks : Callbacks Location Path) (info : DialogInfo) (env : Env)
    (events : List (Event Location Path Env)) (event : Event Location Path Env) :
    run settings storage callbacks info env (events ++ [event]) =
      step settings storage callbacks (run settings storage callbacks info env events) event := by
  rw [run, List.foldl_append]
  rfl

variable (server settings storage callbacks) in
/-- Every event is the answer to what is pending. -/
def AllowedRun (info : DialogInfo) (env : Env) (events : List (Event Location Path Env)) : Prop :=
  ∀ before event after, events = before ++ event :: after →
    Allowed server (run settings storage callbacks info env before) event

theorem AllowedRun.of_append {info : DialogInfo} {env : Env}
    {events : List (Event Location Path Env)} {event : Event Location Path Env}
    (h : AllowedRun server settings storage callbacks info env (events ++ [event])) :
    AllowedRun server settings storage callbacks info env events := by
  intro before other after hevents
  refine h before other (after ++ [event]) ?_
  rw [hevents, List.append_assoc, List.cons_append]

/-- Counting, and then between two answers. -/
theorem run_cases (hcallbacks : Continues callbacks) {info : DialogInfo}
    (hsplits : info.splits ≠ [])
    (hinfo : info.messagesCountPerSplit.length = info.splits.length) {env : Env}
    {events : List (Event Location Path Env)}
    (hallowed : AllowedRun server settings storage callbacks info env events) :
    ((∃ process, Counting info.splits.length (countsOf events) process
        (run settings storage callbacks info env events)) ∧
      events.length = (countsOf events).length) ∨
    (countsOf events).length = info.splits.length ∧ ∃ m,
      events.length + m ≤ info.splits.length + server.total info.splits.length 0 ∧
      Between server (countsOf events) (run settings storage callbacks info env events) m := by
  induction events using List.reverseRecOn with
  | nil =>
    refine .inl ⟨⟨{ info }, ?_⟩, rfl⟩
    exact {
      chatProcess := rfl
      pending := rfl
      lt := List.length_pos_iff.mpr hsplits
      splits := rfl
      length := hinfo
      counted := rfl
      localSplitIndex := rfl
      largestIdPlusOne := rfl
      noSlice := rfl
      notLast := rfl
      slices := rfl
      notDone := rfl
      noErrors := rfl }
  | append_singleton events event ih =>
    have hevent := hallowed events event [] rfl
    rw [run_append]
    rcases ih hallowed.of_append with ⟨⟨process, hcounting⟩, hlength⟩ | ⟨hcounts, m, hle, hbetween⟩
    · cases event with
      | counted count =>
        have hcountsOf : countsOf (events ++ [.counted count]) = countsOf events ++ [count] := by
          simp [countsOf, Event.count?]
        have hlength' : (events ++ [Event.counted count]).length =
            (countsOf events ++ [count]).length := by
          simp [hlength]
        rw [hcountsOf]
        rcases hcounting.step server settings storage hcallbacks count with hnext | ⟨hall, hnext⟩
        · exact .inl ⟨hnext, hlength'⟩
        · exact .inr ⟨hall, _, by omega, hnext⟩
      | page sliced messages =>
        simp [Allowed, hcounting.chatProcess, hcounting.pending] at hevent
      | fileDone path env' =>
        simp [Allowed, hcounting.chatProcess, hcounting.pending] at hevent
    · obtain ⟨m', hlt, hnext⟩ := hbetween.step settings storage hcallbacks hevent
      have hcountsOf : countsOf (events ++ [event]) = countsOf events := by
        cases event with
        | counted count =>
          cases hbetween with
          | slicing hprocess hpending => simp [Allowed, hprocess, hpending] at hevent
          | file hprocess hpending => simp [Allowed, hprocess, hpending] at hevent
          | thumb hprocess hpending => simp [Allowed, hprocess, hpending] at hevent
          | finished hpending hprocess => simp [Allowed, hprocess] at hevent
          | failed hpending hprocess => simp [Allowed, hprocess, hpending] at hevent
        | page sliced messages => simp [countsOf, Event.count?]
        | fileDone path env' => simp [countsOf, Event.count?]
      rw [hcountsOf]
      refine .inr ⟨hcounts, m', ?_, hnext⟩
      rw [List.length_append, List.length_singleton]
      omega

variable (server counts) in
/-- The messages of the splits that were not counted as empty, in the order of the splits. -/
def expected : List MessageData :=
  (List.range counts.length).flatMap fun k =>
    if counts.getD k 0 = 0 then [] else server.content k

theorem later_zero : server.later counts 0 = expected server counts := by
  rw [Server.later, Nat.sub_zero, ← List.range_eq_range', expected]
  refine List.flatMap_congr fun k _ => ?_
  by_cases hcount : counts.getD k 0 = 0
  · rw [if_pos hcount]
    exact if_pos hcount
  · rw [if_neg hcount]
    exact Server.rest_one hcount

/-- What an export of a chat promises. -/
structure Complete (server : Server) (info : DialogInfo)
    (events : List (Event Location Path Env)) (api : ApiWrap Location Path Env) : Prop where
  once : api.doneCalls ≤ 1
  waiting : api.pending ≠ none → api.doneCalls = 0
  handed_prefix : (countsOf events).length = info.splits.length →
    api.handed <+: expected server (countsOf events)
  finished : api.pending = none → api.ioErrors = 0 →
    api.doneCalls = 1 ∧ api.handed = expected server (countsOf events)
  ends : events.length ≤ info.splits.length + server.total info.splits.length 0

theorem Between.complete {info : DialogInfo} {events : List (Event Location Path Env)} {m : ℕ}
    (h : Between server (countsOf events) api m)
    (hends : events.length ≤ info.splits.length + server.total info.splits.length 0) :
    Complete server info events api := by
  have hpending : ∀ {process page after pending},
      Holding server (countsOf events) page after process api → api.pending = some pending →
      Complete server info events api := by
    intro process page after pending hholding hpending
    exact {
      once := by rw [hholding.notDone]; exact Nat.zero_le _
      waiting := fun _ => hholding.notDone
      handed_prefix := fun _ => later_zero ▸ hholding.handed_prefix
      finished := fun hnone => by
        rw [hpending] at hnone
        cases hnone
      ends := hends }
  cases h with
  | slicing hprocess hsome h hcount hbound =>
    have hconserved := h.conserved
    rw [List.append_assoc, later_zero] at hconserved
    exact {
      once := by rw [h.notDone]; exact Nat.zero_le _
      waiting := fun _ => h.notDone
      handed_prefix := fun _ => ⟨_, hconserved⟩
      finished := fun hnone => by
        rw [hsome] at hnone
        cases hnone
      ends := hends }
  | file hprocess hsome h hmessage hfile hbound => exact hpending h hsome
  | thumb hprocess hsome h hmessage hthumb hbound => exact hpending h hsome
  | finished hnone hprocess hdone herrors hhanded =>
    rw [later_zero] at hhanded
    exact {
      once := hdone.le
      waiting := fun hsome => absurd hnone hsome
      handed_prefix := fun _ => hhanded ▸ List.prefix_refl _
      finished := fun _ _ => ⟨hdone, hhanded⟩
      ends := hends }
  | failed hnone hprocess hdone herrors hhanded =>
    rw [later_zero] at hhanded
    exact {
      once := by rw [hdone]; exact Nat.zero_le _
      waiting := fun _ => hdone
      handed_prefix := fun _ => hhanded
      finished := fun _ hzero => by
        rw [herrors] at hzero
        cases hzero
      ends := hends }

/-- Everything may be loaded, and nothing is in the cache. -/
def shortSettings : Settings where
  mediaTypes _ := true
  sizeLimit := 100
  singlePeerFrom := 0
  singlePeerTill := 0

def emptyStorage : Storage Unit Unit Unit where
  find _ _ := none
  writeBlock _ _ := (some (), ())

def goOn : Callbacks Unit Unit where
  start _ := true
  fileProgress _ := true
  handleSlice _ := true

/-- A message with a picture. -/
def picture (id : ℤ) : Message Unit Unit where
  id := id
  date := 1
  content := .other
  file := { location := some (), size := 1, content := [] }
  thumb := { location := none, size := 0, content := [] }

instance (messages : List MessageData) (offset : ℤ) (sliced : Bool) (page : List MessageData) :
    Decidable (IsPage messages offset sliced page) :=
  decidable_of_iff
    ((page <+: messages.filter fun message => offset ≤ message.id) ∧
      (page = [] → messages.filter (fun message => offset ≤ message.id) = []) ∧
      (sliced = false → page = messages.filter fun message => offset ≤ message.id))
    ⟨fun h => ⟨h.1, h.2.1, h.2.2⟩, fun h => ⟨h.next, h.empty, h.whole⟩⟩

instance (server : Server) (api : ApiWrap Location Path Env) (event : Event Location Path Env) :
    Decidable (Allowed server api event) := by
  unfold Allowed
  split <;> infer_instance

/-- Two messages in the first split. -/
def shortServer : Server where
  content k := if k = 0 then [(picture 3).toMessageData, (picture 7).toMessageData] else []
  ascending k := by
    split_ifs
    · decide
    · exact List.Pairwise.nil
  positive k := by
    split_ifs
    · decide
    · simp

/-- Two pages with one message each, and a second split without messages. -/
def shortEvents : List (Event Unit Unit Unit) :=
  [.counted 2, .counted 0, .page true [picture 3], .fileDone (some ()) (),
    .page false [picture 7], .fileDone none ()]

end ApiWrap
end Bettergram.Export
