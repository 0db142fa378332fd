import Mathlib.Data.List.Induction
import Bettergram.Export.ChatPages

/-! # Whole exports of a chat

Whatever sizes the pages have, and whatever files are loaded in between, an export that gets its
answers hands over every message of the counted splits once and in order, and then calls `done`.
-/

namespace Bettergram.Export
namespace ApiWrap

variable {Location Path Env : Type} (server : Server)

/-- The messages that the writer was given. -/
def handed (api : ApiWrap Location Path Env) : List MessageData := dataOf api.slices.flatten

/-- What is the same from the counting to the end. -/
structure Chatting (counts : List ℕ) (process : ChatProcess Location Path)
    (api : ApiWrap Location Path Env) : Prop where
  splits : process.info.splits.length = counts.length
  counted : process.info.messagesCountPerSplit = counts
  index : process.localSplitIndex < counts.length
  notDone : api.doneCalls = 0
  noErrors : api.ioErrors = 0

/-- A page is to be requested. -/
structure Requesting (counts : List ℕ) (process : ChatProcess Location Path)
    (api : ApiWrap Location Path Env) : Prop extends Chatting counts process api where
  noSlice : process.slice = none
  notLast : process.lastSlice = false
  conserved : api.handed ++ server.rest counts process.localSplitIndex process.largestIdPlusOne ++
    server.later counts (process.localSplitIndex + 1) = server.later counts 0

/-- A page has been received, and `after` is the rest of the split behind it. -/
structure Holding (counts : List ℕ) (page : List (Message Location Path))
    (after : List MessageData) (process : ChatProcess Location Path)
    (api : ApiWrap Location Path Env) : Prop extends Chatting counts process api where
  slice : process.slice = some page
  rest : server.rest counts process.localSplitIndex process.largestIdPlusOne = dataOf page ++ after
  last : process.lastSlice = true → after = []
  empty : page = [] → process.lastSlice = true
  conserved : api.handed ++ server.rest counts process.localSplitIndex process.largestIdPlusOne ++
    server.later counts (process.localSplitIndex + 1) = server.later counts 0

/-- How many answers are to come at most when the page has been handed over. -/
def bound (counts : List ℕ) (after : List MessageData) (process : ChatProcess Location Path) : ℕ :=
  3 * after.length + (if process.lastSlice then 0 else 1) +
    server.total counts.length (process.localSplitIndex + 1)

/-- Between two answers; the number bounds the answers that are to come. -/
inductive Between (counts : List ℕ) (api : ApiWrap Location Path Env) : ℕ → Prop
  | slicing {process n} (hprocess : api.chatProcess = some process)
      (hpending : api.pending = some .slice) (h : Requesting server counts process api)
      (hcount : counts.getD process.localSplitIndex 0 ≠ 0)
      (hbound : 3 * (server.rest counts process.localSplitIndex
        process.largestIdPlusOne).length + 1 +
        server.total counts.length (process.localSplitIndex + 1) ≤ n) : Between counts api n
  | file {process n page after message} (hprocess : api.chatProcess = some process)
      (hpending : api.pending = some .file) (h : Holding server counts page after process api)
      (hmessage : page[process.fileIndex]? = some message) (hfile : message.file.settled = false)
      (hbound : unsettled page + bound server counts after process ≤ n) : Between counts api n
  | thumb {process n page after message} (hprocess : api.chatProcess = some process)
      (hpending : api.pending = some .thumb) (h : Holding server counts page after process api)
      (hmessage : page[process.fileIndex]? = some message) (hthumb : message.thumb.settled = false)
      (hbound : unsettled page + bound server counts after process ≤ n) : Between counts api n
  | finished {n} (hpending : api.pending = none) (hprocess : api.chatProcess = none)
      (hdone : api.doneCalls = 1) (herrors : api.ioErrors = 0)
      (hhanded : api.handed = server.later counts 0) : Between counts api n
  | failed {process n} (hpending : api.pending = none) (hprocess : api.chatProcess = some process)
      (hdone : api.doneCalls = 0) (herrors : api.ioErrors = 1)
      (hhanded : api.handed <+: server.later counts 0) : Between counts api n

variable {server} {counts : List ℕ} {process : ChatProcess Location Path}
  {api : ApiWrap Location Path Env}

theorem Between.mono {n m : ℕ} (h : Between server counts api n) (hle : n ≤ m) :
    Between server counts api m := by
  cases h with
  | slicing hprocess hpending h hcount hbound =>
    exact .slicing hprocess hpending h hcount (hbound.trans hle)
  | file hprocess hpending h hmessage hfile hbound =>
    exact .file hprocess hpending h hmessage hfile (hbound.trans hle)
  | thumb hprocess hpending h hmessage hthumb hbound =>
    exact .thumb hprocess hpending h hmessage hthumb (hbound.trans hle)
  | finished hpending hprocess hdone herrors hhanded =>
    exact .finished hpending hprocess hdone herrors hhanded
  | failed hpending hprocess hdone herrors hhanded =>
    exact .failed hpending hprocess hdone herrors hhanded

variable (server counts) in
/-- Requests from the split `k` on do what they should. -/
def RequestsFrom (k : ℕ) (request : ChatProcess Location Path → ApiWrap Location Path Env →
    ApiWrap Location Path Env) : Prop :=
  ∀ process api, k ≤ process.localSplitIndex → Requesting server counts process api →
    Between server counts (request process api)
      (3 * (server.rest counts process.localSplitIndex process.largestIdPlusOne).length + 1 +
        server.total counts.length (process.localSplitIndex + 1))

variable {request : ChatProcess Location Path → ApiWrap Location Path Env →
  ApiWrap Location Path Env}

/-! ## The end of a page -/

/-- The page was handed over; the next one is requested, or that of the next split, or the
export ends. -/
theorem between_nextSlice {after : List MessageData} {k : ℕ}
    (h : Chatting counts process api) (hslice : process.slice = none)
    (hconserved : api.handed ++ after ++ server.later counts (process.localSplitIndex + 1) =
      server.later counts 0)
    (hlast : process.lastSlice = true → after = [])
    (hafter : process.lastSlice = false →
      server.rest counts process.localSplitIndex process.largestIdPlusOne = after)
    (hrequest : RequestsFrom server counts k request) (hk : k ≤ process.localSplitIndex + 1)
    (hk' : process.lastSlice = false → k ≤ process.localSplitIndex) :
    Between server counts (nextSlice request process api) (bound server counts after process) := by
  unfold nextSlice bound
  cases hlastSlice : process.lastSlice with
  | true =>
    rw [hlast hlastSlice, List.append_nil] at hconserved
    rw [if_pos rfl, if_pos rfl]
    simp only [h.splits]
    by_cases hnext : process.localSplitIndex + 1 < counts.length
    · rw [if_pos hnext]
      have hlater : server.later counts (process.localSplitIndex + 1) = _ := Server.later_eq hnext
      have htotal : server.total counts.length (process.localSplitIndex + 1) = _ :=
        Server.total_eq hnext
      have hlength : (server.rest counts (process.localSplitIndex + 1) 1).length ≤ _ :=
        Server.length_rest_le _ _
      rw [hlater, ← List.append_assoc] at hconserved
      have hnextRequest : Requesting server counts { process with
          localSplitIndex := process.localSplitIndex + 1
          lastSlice := false
          largestIdPlusOne := 1 } api := {
        splits := h.splits
        counted := h.counted
        index := hnext
        notDone := h.notDone
        noErrors := h.noErrors
        noSlice := hslice
        notLast := rfl
        conserved := hconserved }
      refine (hrequest _ _ hk hnextRequest).mono ?_
      simp only
      omega
    · rw [if_neg hnext]
      rw [Server.later_of_le (Nat.le_of_not_lt hnext), List.append_nil] at hconserved
      exact .finished rfl rfl (congrArg (· + 1) h.notDone) h.noErrors hconserved
  | false =>
    rw [if_neg Bool.false_ne_true, if_neg Bool.false_ne_true]
    have hrest := hafter hlastSlice
    have hbetween := hrequest process api (hk' hlastSlice) {
      h with
      noSlice := hslice
      notLast := hlastSlice
      conserved := hrest.symm ▸ hconserved }
    rwa [hrest] at hbetween

variable {callbacks : Callbacks Location Path}

theorem between_finishMessagesSlice {page : List (Message Location Path)}
    {after : List MessageData} {k : ℕ} (hcallbacks : ∀ slice, callbacks.handleSlice slice = true)
    (h : Holding server counts page after process api)
    (hrequest : RequestsFrom server counts k request) (hk : k ≤ process.localSplitIndex + 1)
    (hk' : process.lastSlice = false → k ≤ process.localSplitIndex) :
    Between server counts (finishMessagesSlice callbacks request process api)
      (bound server counts after process) := by
  have hconserved := h.conserved
  rw [h.rest] at hconserved
  unfold finishMessagesSlice
  simp only [h.slice, Option.getD_some]
  cases hlast : page.getLast? with
  | none =>
    have hpage := List.getLast?_eq_none_iff.mp hlast
    subst hpage
    have hlastSlice := h.empty rfl
    have hchatting : Chatting counts { process with slice := none } api :=
      ⟨h.splits, h.counted, h.index, h.notDone, h.noErrors⟩
    refine between_nextSlice hchatting rfl hconserved h.last (fun hfalse => ?_) hrequest hk hk'
    rw [hlastSlice] at hfalse
    cases hfalse
  | some last =>
    simp only [hcallbacks, if_true]
    have hdata : (dataOf page).getLast? = some last.toMessageData := by
      rw [dataOf, List.getLast?_map, hlast]
      rfl
    have hchatting : Chatting counts
        { process with slice := none, largestIdPlusOne := last.id + 1 }
        { api with slices := api.slices ++ [page] } :=
      ⟨h.splits, h.counted, h.index, h.notDone, h.noErrors⟩
    refine between_nextSlice hchatting rfl ?_ h.last
      (fun _ => Server.rest_succ h.rest hdata) hrequest hk hk'
    have hhanded : handed { api with slices := api.slices ++ [page] } =
        api.handed ++ dataOf page := by
      simp [handed, dataOf]
    rw [hhanded, List.append_assoc api.handed]
    exact hconserved

/-! ## The files of a page -/

/-- A file of the current message changes nothing else. -/
theorem Holding.setMessage {page : List (Message Location Path)} {after : List MessageData}
    (h : Holding server counts page after process api) {message : Message Location Path}
    (hmessage : page[process.fileIndex]? = some message) (message' : Message Location Path)
    (hdata : message'.toMessageData = message.toMessageData) :
    Holding server counts (page.set process.fileIndex message') after
      (ApiWrap.setMessage message' process) api where
  splits := h.splits
  counted := h.counted
  index := h.index
  notDone := h.notDone
  noErrors := h.noErrors
  slice := by rw [ApiWrap.setMessage, h.slice]; rfl
  rest := by rw [dataOf_set hmessage hdata]; exact h.rest
  last := h.last
  empty hempty := h.empty (by simpa using hempty)
  conserved := h.conserved


/-- The storage and what is pending do not matter for what is handed over. -/
theorem Holding.of_slices {page : List (Message Location Path)} {after : List MessageData}
    {api' : ApiWrap Location Path Env} (h : Holding server counts page after process api)
    (hslices : api'.slices = api.slices) (hdone : api'.doneCalls = api.doneCalls)
    (herrors : api'.ioErrors = api.ioErrors) : Holding server counts page after process api' where
  splits := h.splits
  counted := h.counted
  index := h.index
  notDone := hdone.trans h.notDone
  noErrors := herrors.trans h.noErrors
  slice := h.slice
  rest := h.rest
  last := h.last
  empty := h.empty
  conserved := by rw [handed, hslices]; exact h.conserved

theorem Holding.withFileIndex {page : List (Message Location Path)} {after : List MessageData}
    (h : Holding server counts page after process api) (fileIndex : ℕ) :
    Holding server counts page after { process with fileIndex } api :=
  ⟨⟨h.splits, h.counted, h.index, h.notDone, h.noErrors⟩, h.slice, h.rest, h.last, h.empty,
    h.conserved⟩

theorem Holding.handed_prefix {page : List (Message Location Path)} {after : List MessageData}
    (h : Holding server counts page after process api) :
    api.handed <+: server.later counts 0 := by
  have hconserved := h.conserved
  rw [List.append_assoc] at hconserved
  exact ⟨_, hconserved⟩

theorem between_ioError {page : List (Message Location Path)} {after : List MessageData}
    (h : Holding server counts page after process api)
    (process' : ChatProcess Location Path) (env : Env) (n : ℕ) :
    Between server counts (api.ioError process' env) n :=
  .failed rfl rfl h.notDone (congrArg (· + 1) h.noErrors) h.handed_prefix

variable (callbacks) in
/-- The callbacks go on. -/
structure Continues : Prop where
  start : ∀ info, callbacks.start info = true
  fileProgress : ∀ index, callbacks.fileProgress index = true
  handleSlice : ∀ slice, callbacks.handleSlice slice = true

variable {settings : Settings} {storage : Storage Location Path Env}

variable (settings storage) in
/-- The loop ends with the page, or at a file that has to be loaded. -/
theorem between_loadFiles {page : List (Message Location Path)} {after : List MessageData}
    {k left : ℕ} (hcallbacks : Continues callbacks)
    (h : Holding server counts page after process api)
    (hleft : left = page.length - process.fileIndex)
    (hrequest : RequestsFrom server counts k request) (hk : k ≤ process.localSplitIndex + 1)
    (hk' : process.lastSlice = false → k ≤ process.localSplitIndex) :
    Between server counts (loadFiles settings storage callbacks request left process api)
      (unsettled page + bound server counts after process) := by
  induction left generalizing page process api with
  | zero =>
    exact (between_finishMessagesSlice hcallbacks.handleSlice h hrequest hk hk').mono
      (Nat.le_add_left _ _)
  | succ left ih =>
    have hlt : process.fileIndex < page.length := by omega
    obtain ⟨message, hmessage⟩ : ∃ message, page[process.fileIndex]? = some message :=
      ⟨_, List.getElem?_eq_getElem hlt⟩
    rw [loadFiles]
    have hcurrent : (process.slice.bind fun list => list[process.fileIndex]?) = some message := by
      rw [h.slice]
      exact hmessage
    simp only [hcurrent]
    split
    · exact ih (h.withFileIndex _) (by simp only; omega) hk hk'
    · rcases processFileLoad_spec settings storage api.env message.file message with
        ⟨file, env, hready, hsettled⟩ | ⟨hloading, hunsettled⟩ | ⟨env, herror⟩
      · simp only [hready]
        set message₁ : Message Location Path := { message with file } with hmessage₁
        have hholding := h.setMessage hmessage message₁ rfl
        have hset₁ : (page.set process.fileIndex message₁)[process.fileIndex]? = some message₁ := by
          rw [List.getElem?_set_self hlt]
        have hcount₁ := unsettled_set hmessage message₁
        have hless₁ : message₁.unsettled ≤ message.unsettled := by
          simp only [Message.unsettled, hmessage₁, hsettled, if_true, Nat.zero_add]
          exact Nat.le_add_left _ _
        rcases processFileLoad_spec settings storage env message.thumb message₁ with
          ⟨thumb, env', hready', hsettled'⟩ | ⟨hloading', hunsettled'⟩ | ⟨env', herror'⟩
        · simp only [hready']
          set message₂ : Message Location Path := { message₁ with thumb } with hmessage₂
          have hholding₂ := hholding.setMessage hset₁ message₂ rfl
          have hcount₂ := unsettled_set hset₁ message₂
          have hless₂ : message₂.unsettled ≤ message₁.unsettled := by
            simp only [Message.unsettled, hmessage₂, hsettled', if_true, Nat.add_zero]
            exact Nat.le_add_right _ _
          have hholding₃ : Holding server counts _ after _ { api with env := env' } :=
            (hholding₂.withFileIndex (process.fileIndex + 1)).of_slices rfl rfl rfl
          refine (ih hholding₃ ?_ hk hk').mono (Nat.add_le_add_right ?_ _)
          · simp only [List.length_set]
            change left = page.length - (process.fileIndex + 1)
            omega
          · change unsettled ((page.set process.fileIndex message₁).set process.fileIndex
              message₂) ≤ _
            omega
        · simp only [hloading', hcallbacks.fileProgress, if_true]
          refine .thumb rfl rfl (hholding.of_slices rfl rfl rfl) hset₁ hunsettled'
            (Nat.add_le_add_right ?_ _)
          omega
        · simp only [herror']
          exact between_ioError h _ _ _
      · simp only [hloading, hcallbacks.fileProgress, if_true]
        exact .file rfl rfl (h.of_slices rfl rfl rfl) hmessage hunsettled (le_refl _)
      · simp only [herror]
        exact between_ioError h _ _ _


variable (settings storage) in
theorem between_loadMessagesFiles {slice : List (Message Location Path)}
    {after : List MessageData} {k : ℕ} (hcallbacks : Continues callbacks)
    (h : Holding server counts slice after { process with
      lastSlice := process.lastSlice || slice.isEmpty
      slice := some slice
      fileIndex := 0 } api)
    (hrequest : RequestsFrom server counts k request) (hk : k ≤ process.localSplitIndex + 1)
    (hk' : (process.lastSlice || slice.isEmpty) = false → k ≤ process.localSplitIndex) :
    Between server counts
      (loadMessagesFiles settings storage callbacks request slice process api)
      (unsettled slice + (3 * after.length +
        (if process.lastSlice || slice.isEmpty then 0 else 1) +
        server.total counts.length (process.localSplitIndex + 1))) :=
  between_loadFiles settings storage hcallbacks h rfl hrequest hk hk'

/-! ## Requests -/

variable (settings storage) in
theorem requestsFrom_requestSlices (hcallbacks : Continues callbacks) {splits k : ℕ}
    (hsplits : counts.length ≤ k + splits) :
    RequestsFrom server counts k (requestSlices settings storage callbacks splits) := by
  induction splits generalizing k with
  | zero =>
    intro process api hk h
    have hindex := h.index
    omega
  | succ splits ih =>
    intro process api hk h
    rw [requestSlices, h.counted]
    by_cases hcount : counts.getD process.localSplitIndex 0 = 0
    · rw [if_pos hcount]
      have hrest : ∀ offset, server.rest counts process.localSplitIndex offset = [] :=
        fun offset => if_pos hcount
      have hholding : Holding server counts [] [] { process with
          lastSlice := process.lastSlice || true, slice := some [], fileIndex := 0 } api := {
        splits := h.splits
        counted := h.counted
        index := h.index
        notDone := h.notDone
        noErrors := h.noErrors
        slice := rfl
        rest := hrest _
        last := fun _ => rfl
        empty := fun _ => Bool.or_true _
        conserved := h.conserved }
      have hrequest := @ih (process.localSplitIndex + 1) (by omega)
      refine (between_loadMessagesFiles settings storage hcallbacks hholding hrequest
        (le_refl _) ?_).mono ?_
      · intro hfalse
        simp at hfalse
      · have hunsettled : unsettled ([] : List (Message Location Path)) = 0 := rfl
        simp only [hunsettled, List.isEmpty_nil, Bool.or_true, if_true, List.length_nil]
        omega
    · rw [if_neg hcount]
      exact .slicing rfl rfl
        ⟨⟨h.splits, h.counted, h.index, h.notDone, h.noErrors⟩, h.noSlice, h.notLast,
          h.conserved⟩ hcount (le_refl _)

variable (settings storage) in
theorem requestsFrom_requestMessagesSlice (hcallbacks : Continues callbacks) :
    RequestsFrom server counts 0 (requestMessagesSlice settings storage callbacks) := by
  intro process api hk h
  have hsplits : counts.length ≤ 0 + process.info.splits.length := by
    rw [h.splits, Nat.zero_add]
  exact requestsFrom_requestSlices settings storage hcallbacks hsplits process api hk h

/-! ## Answers -/

/-- A page of the server: the next messages of the split from the offset on. An empty page, and
one that is not sliced, is the end. -/
structure IsPage (messages : List MessageData) (offset : ℤ) (sliced : Bool)
    (page : List MessageData) : Prop where
  next : page <+: messages.filter fun message => offset ≤ message.id
  empty : page = [] → messages.filter (fun message => offset ≤ message.id) = []
  whole : sliced = false → page = messages.filter fun message => offset ≤ message.id

variable (server) in
/-- The event answers what is pending. -/
def Allowed (api : ApiWrap Location Path Env) (event : Event Location Path Env) : Prop :=
  match api.chatProcess, api.pending, event with
  | some _, some (.count _), .counted _ => True
  | some process, some .slice, .page sliced messages =>
    IsPage (server.content process.localSplitIndex) process.largestIdPlusOne sliced
      (dataOf messages.reverse)
  | some _, some .file, .fileDone _ _ => True
  | some _, some .thumb, .fileDone _ _ => True
  | _, _, _ => False

variable {event : Event Location Path Env}

/-- A page is an answer that brings the end nearer. -/
theorem between_messagesLoaded {sliced : Bool} {messages : List (Message Location Path)}
    (hcallbacks : Continues callbacks) (h : Requesting server counts process api)
    (hcount : counts.getD process.localSplitIndex 0 ≠ 0)
    (hpage : IsPage (server.content process.localSplitIndex) process.largestIdPlusOne sliced
      (dataOf messages.reverse)) :
    Between server counts
      (messagesLoaded settings storage callbacks sliced messages process api)
      (3 * (server.rest counts process.localSplitIndex process.largestIdPlusOne).length +
        server.total counts.length (process.localSplitIndex + 1)) := by
  have hrest : server.rest counts process.localSplitIndex process.largestIdPlusOne =
      (server.content process.localSplitIndex).filter fun message =>
        process.largestIdPlusOne ≤ message.id := if_neg hcount
  obtain ⟨after, hafter⟩ := hpage.next
  rw [← hrest] at hafter
  have hlastIff : (process.lastSlice || !sliced || messages.reverse.isEmpty) = true →
      after = [] := by
    intro hlast
    rw [h.notLast, Bool.false_or, Bool.or_eq_true, Bool.not_eq_true', List.isEmpty_iff] at hlast
    rcases hlast with hwhole | hempty
    · have heq := hpage.whole hwhole
      rw [← hrest, ← hafter] at heq
      exact List.self_eq_append_right.mp heq
    · rw [hempty] at hafter hpage
      have hnone := hpage.empty rfl
      rw [← hrest, ← hafter] at hnone
      exact (List.append_eq_nil_iff.mp hnone).2
  have hholding : Holding server counts messages.reverse after { process with
      lastSlice := process.lastSlice || !sliced || messages.reverse.isEmpty
      slice := some messages.reverse
      fileIndex := 0 } api := {
    splits := h.splits
    counted := h.counted
    index := h.index
    notDone := h.notDone
    noErrors := h.noErrors
    slice := rfl
    rest := hafter.symm
    last := hlastIff
    empty := fun hempty => by simp [hempty]
    conserved := h.conserved }
  have hrequest : RequestsFrom server counts 0 _ :=
    requestsFrom_requestMessagesSlice settings storage hcallbacks
  refine (between_loadMessagesFiles settings storage hcallbacks hholding hrequest
    (Nat.zero_le _) fun _ => Nat.zero_le _).mono ?_
  have hlength : (dataOf messages.reverse).length = messages.reverse.length := List.length_map _
  have hunsettled := unsettled_le messages.reverse
  rw [← hafter, List.length_append, hlength]
  cases hempty : messages.reverse with
  | nil =>
    rw [hempty] at hunsettled
    simp only [List.isEmpty_nil, Bool.or_true, if_true, List.length_nil] at hunsettled ⊢
    omega
  | cons first others =>
    rw [hempty] at hunsettled
    simp only [List.length_cons] at hunsettled ⊢
    split_ifs <;> omega

variable (settings storage) in
/-- A loaded file brings the end nearer, too. -/
theorem between_fileDone {page : List (Message Location Path)} {after : List MessageData}
    {message : Message Location Path} {n : ℕ} (hcallbacks : Continues callbacks)
    (h : Holding server counts page after process api)
    (hmessage : page[process.fileIndex]? = some message)
    (message' : Message Location Path) (hdata : message'.toMessageData = message.toMessageData)
    (hless : message'.unsettled < message.unsettled)
    (hbound : unsettled page + bound server counts after process ≤ n) :
    ∃ m, m < n ∧ Between server counts (loadNextMessageFile settings storage callbacks
      (requestMessagesSlice settings storage callbacks) (setMessage message' process) api) m := by
  have hholding := h.setMessage hmessage message' hdata
  have hset := unsettled_set hmessage message'
  have hrequest : RequestsFrom server counts 0 _ :=
    requestsFrom_requestMessagesSlice settings storage hcallbacks
  have hsame : bound server counts after (setMessage message' process) =
      bound server counts after process := rfl
  refine ⟨_, ?_, between_loadFiles settings storage hcallbacks hholding ?_ hrequest
    (Nat.zero_le _) fun _ => Nat.zero_le _⟩
  · omega
  · rw [hholding.slice]
    rfl

variable (settings storage) in
theorem Between.step {n : ℕ} (hcallbacks : Continues callbacks) (h : Between server counts api n)
    (hallowed : Allowed server api event) :
    ∃ m, m < n ∧ Between server counts (step settings storage callbacks api event) m := by
  cases h with
  | @slicing process _ hprocess hpending h hcount hbound =>
    simp only [Allowed, hprocess, hpending] at hallowed
    simp only [ApiWrap.step, hprocess, hpending]
    cases event with
    | page sliced messages =>
      exact ⟨_, by omega, between_messagesLoaded hcallbacks h hcount hallowed⟩
    | counted count => cases hallowed
    | fileDone path env => cases hallowed
  | @file process _ page after message hprocess hpending h hmessage hfile hbound =>
    simp only [Allowed, hprocess, hpending] at hallowed
    simp only [ApiWrap.step, hprocess, hpending]
    cases event with
    | fileDone path env =>
      have hcurrent : (process.slice.bind fun list => list[process.fileIndex]?) =
          some message := by
        rw [h.slice]
        exact hmessage
      have hholding : Holding server counts page after process
          { api with chatProcess := some process, pending := some .file, env } :=
        h.of_slices rfl rfl rfl
      simp only [loadMessageFileDone, hcurrent]
      refine between_fileDone settings storage hcallbacks hholding hmessage
        { message with file := loaded path message.file } rfl ?_ hbound
      simp [Message.unsettled, settled_loaded, hfile]
    | counted count => cases hallowed
    | page sliced messages => cases hallowed
  | @thumb process _ page after message hprocess hpending h hmessage hthumb hbound =>
    simp only [Allowed, hprocess, hpending] at hallowed
    simp only [ApiWrap.step, hprocess, hpending]
    cases event with
    | fileDone path env =>
      have hcurrent : (process.slice.bind fun list => list[process.fileIndex]?) =
          some message := by
        rw [h.slice]
        exact hmessage
      have hholding : Holding server counts page after process
          { api with chatProcess := some process, pending := some .thumb, env } :=
        h.of_slices rfl rfl rfl
      simp only [loadMessageThumbDone, hcurrent]
      refine between_fileDone settings storage hcallbacks hholding hmessage
        { message with thumb := loaded path message.thumb } rfl ?_ hbound
      simp [Message.unsettled, settled_loaded, hthumb]
    | counted count => cases hallowed
    | page sliced messages => cases hallowed
  | finished hpending hprocess hdone herrors hhanded =>
    simp [Allowed, hprocess] at hallowed
  | failed hpending hprocess hdone herrors hhanded =>
    simp [Allowed, hprocess, hpending] at hallowed

end ApiWrap
end Bettergram.Export
