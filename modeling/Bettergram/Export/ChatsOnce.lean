import Bettergram.Export.ChatsList
import Mathlib.Data.List.Nodup
import Mathlib.Data.List.Perm.Basic

/-! # Each chat is exported once

The splits in the list of chats are, up to the order, the reports of the server: a chat that is
reported twice for one split has that split twice.
-/

namespace Bettergram.Export.ChatsList

variable {settings : Settings} {splits splitIndex : ℕ}

/-- A peer and a split in which it is found. -/
abbrev Report := PeerId × ℕ

def DialogInfo.pairs (info : DialogInfo) : List Report := info.splits.map (info.peerId, ·)

/-- The histories that are exported: a peer in one of its splits. -/
def exported (list : List DialogInfo) : List Report := list.flatMap DialogInfo.pairs

def reportsOf (settings : Settings) (chats : List DialogInfo) (splitIndex : ℕ) : List Report :=
  (chats.filter settings.wants).map fun info => (info.peerId, splitIndex)

/-- The chats of the wanted types that the answer reports for a split. -/
def Exchange.dialogReports (settings : Settings) : Exchange → List Report
  | .dialogs splitIndex _ _ _ answer _ =>
    answer.parsed.elim [] fun parsed => reportsOf settings parsed.1 splitIndex
  | .leftChannels .. => []

/-- Left channels are looked for in the last split. -/
def Exchange.leftReports (settings : Settings) (splits : ℕ) : Exchange → List Report
  | .dialogs .. => []
  | .leftChannels _ answer _ =>
    reportsOf settings (parseLeftChannelsInfo answer.list) (splits - 1)

def dialogReports (settings : Settings) (exchanges : List Exchange) : List Report :=
  exchanges.flatMap (Exchange.dialogReports settings)

def leftReports (settings : Settings) (splits : ℕ) (exchanges : List Exchange) : List Report :=
  exchanges.flatMap (Exchange.leftReports settings splits)

/-- Each peer is in the list of chats once, with the splits in which it was reported, each once,
and no history is exported twice (left channels included). -/
structure ExportedOnce (info : DialogsInfo) (dialogs : List Report) : Prop where
  chats : (info.chats.map DialogInfo.peerId).Nodup
  reported : ∀ peer, peer ∈ info.chats.map DialogInfo.peerId ↔ ∃ split, (peer, split) ∈ dialogs
  splits : ∀ chat ∈ info.chats,
    chat.splits.Nodup ∧ ∀ split, split ∈ chat.splits ↔ (chat.peerId, split) ∈ dialogs
  messages : (exported (info.chats ++ info.left)).Nodup

/-! ## Grouping by peer -/

/-- The list has the reports of the log, grouped by peer. -/
structure Grouped (list : List DialogInfo) (log : List Report) : Prop where
  peers : (list.map DialogInfo.peerId).Nodup
  found : ∀ info ∈ list, info.splits ≠ []
  perm : (exported list).Perm log

theorem mem_exported {list : List DialogInfo} {report : Report} :
    report ∈ exported list ↔ ∃ info ∈ list, info.peerId = report.1 ∧ report.2 ∈ info.splits := by
  constructor
  · intro h
    obtain ⟨info, hinfo, h⟩ := List.mem_flatMap.mp h
    obtain ⟨split, hsplit, rfl⟩ := List.mem_map.mp h
    exact ⟨info, hinfo, rfl, hsplit⟩
  · rintro ⟨info, hinfo, hpeer, hsplit⟩
    refine List.mem_flatMap.mpr ⟨info, hinfo, List.mem_map.mpr ⟨report.2, hsplit, ?_⟩⟩
    rw [hpeer]

theorem Grouped.mem_peers {list : List DialogInfo} {log : List Report} (h : Grouped list log)
    (peer : PeerId) :
    peer ∈ list.map DialogInfo.peerId ↔ ∃ split, (peer, split) ∈ log := by
  constructor
  · intro hmem
    obtain ⟨info, hinfo, rfl⟩ := List.mem_map.mp hmem
    obtain ⟨split, hsplit⟩ := List.exists_mem_of_ne_nil _ (h.found info hinfo)
    exact ⟨split, h.perm.mem_iff.mp (mem_exported.mpr ⟨info, hinfo, rfl, hsplit⟩)⟩
  · rintro ⟨split, hmem⟩
    obtain ⟨info, hinfo, hpeer, -⟩ := mem_exported.mp (h.perm.mem_iff.mpr hmem)
    exact List.mem_map.mpr ⟨info, hinfo, hpeer⟩

theorem Grouped.mem_splits {list : List DialogInfo} {log : List Report} (h : Grouped list log)
    {info : DialogInfo} (hinfo : info ∈ list) (split : ℕ) :
    split ∈ info.splits ↔ (info.peerId, split) ∈ log := by
  rw [← h.perm.mem_iff, mem_exported]
  constructor
  · intro hsplit
    exact ⟨info, hinfo, rfl, hsplit⟩
  · rintro ⟨other, hother, hpeer, hsplit⟩
    rwa [List.inj_on_of_nodup_map h.peers hother hinfo hpeer] at hsplit

theorem nodup_splits {list : List DialogInfo} (h : (exported list).Nodup) {info : DialogInfo}
    (hinfo : info ∈ list) : info.splits.Nodup := by
  have hpairs : info.pairs.Nodup := (List.nodup_flatMap.mp h).1 info hinfo
  exact hpairs.of_map _

/-- `f` changes neither the peer of a chat nor, up to the order, its splits. -/
def KeepsSplits (f : ℕ → DialogInfo → DialogInfo) : Prop :=
  ∀ i info, (f i info).peerId = info.peerId ∧ (f i info).splits.Perm info.splits

theorem map_peerId_mapIdx {f : ℕ → DialogInfo → DialogInfo} (hf : KeepsSplits f)
    (list : List DialogInfo) :
    (list.mapIdx f).map DialogInfo.peerId = list.map DialogInfo.peerId := by
  apply List.ext_getElem (by simp)
  intro i h h'
  simp [(hf i _).1]

theorem exported_mapIdx_perm {f : ℕ → DialogInfo → DialogInfo} (hf : KeepsSplits f)
    (list : List DialogInfo) : (exported (list.mapIdx f)).Perm (exported list) := by
  induction list generalizing f with
  | nil => exact .nil
  | cons info list ih =>
    rw [List.mapIdx_cons, exported, exported, List.flatMap_cons, List.flatMap_cons]
    have hpairs : (f 0 info).pairs.Perm info.pairs := by
      rw [DialogInfo.pairs, DialogInfo.pairs, (hf 0 info).1]
      exact (hf 0 info).2.map _
    exact hpairs.append (ih fun i info => hf (i + 1) info)

theorem Grouped.mapIdx {f : ℕ → DialogInfo → DialogInfo} (hf : KeepsSplits f)
    {list : List DialogInfo} {log : List Report} (h : Grouped list log) :
    Grouped (list.mapIdx f) log where
  peers := by
    rw [map_peerId_mapIdx hf]
    exact h.peers
  found info hinfo := by
    obtain ⟨i, hi, rfl⟩ := List.mem_mapIdx.mp hinfo
    intro hnil
    have hperm := (hf i list[i]).2
    rw [hnil] at hperm
    exact h.found _ (List.getElem_mem hi) hperm.symm.eq_nil
  perm := (exported_mapIdx_perm hf list).trans h.perm

/-! ## Appending -/

/-- The index of a peer is its place in the list. -/
def ChatsProcess.Indexed (process : ChatsProcess) : Prop :=
  ∀ peer i, process.indexByPeer peer = some i ↔
    (process.list.map DialogInfo.peerId)[i]? = some peer

structure ChatsProcess.Logged (process : ChatsProcess) (log : List Report) : Prop where
  indexed : process.Indexed
  found : ∀ info ∈ process.list, info.splits ≠ []
  perm : (exported process.list).Perm log

theorem ChatsProcess.Indexed.nodup {process : ChatsProcess} (h : process.Indexed) :
    (process.list.map DialogInfo.peerId).Nodup := by
  rw [List.nodup_iff_getElem?_ne_getElem?]
  intro i j hij hj heq
  have hi := (h _ i).mpr (heq.trans (List.getElem?_eq_getElem hj))
  have hj := (h _ j).mpr (List.getElem?_eq_getElem hj)
  exact Nat.ne_of_lt hij (Option.some.inj (hi.symm.trans hj))

theorem ChatsProcess.Logged.grouped {process : ChatsProcess} {log : List Report}
    (h : process.Logged log) : Grouped process.list log :=
  ⟨h.indexed.nodup, h.found, h.perm⟩

theorem ChatsProcess.logged_nil : ChatsProcess.Logged {} [] where
  indexed peer i := by simp
  found info hinfo := by cases hinfo
  perm := .nil

@[simp] theorem DialogInfo.pushSplit_peerId (info : DialogInfo) :
    (info.pushSplit splitIndex).peerId = info.peerId := rfl

theorem DialogInfo.pushSplit_pairs (info : DialogInfo) :
    (info.pushSplit splitIndex).pairs = info.pairs ++ [(info.peerId, splitIndex)] := by
  simp [pairs, pushSplit]

/-- The chat at the place of the peer gets one more split. -/
theorem ChatsProcess.Logged.modify {process : ChatsProcess} {log : List Report}
    (h : process.Logged log) {peer : PeerId} {i : ℕ}
    (hi : process.indexByPeer peer = some i) :
    Logged { process with list := process.list.modify i (.pushSplit splitIndex) }
      (log ++ [(peer, splitIndex)]) := by
  obtain ⟨info, hget, rfl⟩ : ∃ info, process.list[i]? = some info ∧ info.peerId = peer := by
    have hget := (h.indexed peer i).mp hi
    rwa [List.getElem?_map, Option.map_eq_some_iff] at hget
  obtain ⟨hlt, hget⟩ := List.getElem?_eq_some_iff.mp hget
  obtain ⟨front, a, rest, hlist, hfront, hmodify⟩ :=
    List.exists_of_modify (DialogInfo.pushSplit splitIndex) hlt
  have ha : a = info := by simpa [hlist, ← hfront] using hget
  subst ha
  refine ⟨?_, ?_, ?_⟩
  · intro other j
    rw [h.indexed other j, hmodify, hlist]
    simp
  · intro other hother
    rw [hmodify] at hother
    rcases List.mem_append.mp hother with hmem | hmem
    · exact h.found other (by rw [hlist]; exact List.mem_append_left _ hmem)
    · rcases List.mem_cons.mp hmem with rfl | hmem
      · simp [DialogInfo.pushSplit]
      · exact h.found other (by
          rw [hlist]
          exact List.mem_append_right _ (List.mem_cons_of_mem _ hmem))
  · have hperm := h.perm
    rw [hlist, exported, List.flatMap_append, List.flatMap_cons] at hperm
    rw [hmodify, exported, List.flatMap_append, List.flatMap_cons, DialogInfo.pushSplit_pairs,
      List.append_assoc]
    refine .trans ?_ (hperm.append_right [(a.peerId, splitIndex)])
    rw [List.append_assoc, List.append_assoc]
    exact (List.perm_append_comm.append_left _).append_left _

theorem ChatsProcess.indexed_append {index : PeerId → Option ℕ} {peers : List PeerId}
    (h : ∀ peer i, index peer = some i ↔ peers[i]? = some peer) {new : PeerId}
    (hnew : index new = none) (peer : PeerId) (i : ℕ) :
    Function.update index new (some peers.length) peer = some i ↔
      (peers ++ [new])[i]? = some peer := by
  by_cases hpeer : peer = new
  · subst hpeer
    have hother : peers[i]? ≠ some peer := by
      simp [← h, hnew]
    rw [Function.update_self, List.getElem?_append]
    split
    · rename_i hi
      simpa [Nat.ne_of_gt hi] using hother
    · rename_i hi
      simp only [Option.some.injEq, List.getElem?_singleton]
      split
      · simp only [iff_true]
        omega
      · simp only [reduceCtorEq, iff_false]
        omega
  · rw [Function.update_of_ne hpeer, h, List.getElem?_append]
    split
    · rfl
    · rename_i hi
      rw [List.getElem?_eq_none (Nat.le_of_not_lt hi), List.getElem?_singleton]
      split
      · simp [Ne.symm hpeer]
      · rfl

/-- A new peer is put behind the others. -/
theorem ChatsProcess.Logged.new {process : ChatsProcess} {log : List Report}
    (h : process.Logged log) (splitIndex : ℕ) {info : DialogInfo} (hinfo : info.splits = [])
    (hnone : process.indexByPeer info.peerId = none) :
    Logged
      { list := process.list ++ [info.pushSplit splitIndex]
        indexByPeer :=
          Function.update process.indexByPeer info.peerId (some process.list.length) }
      (log ++ [(info.peerId, splitIndex)]) := by
  refine ⟨?_, ?_, ?_⟩
  · intro peer j
    have hlength : (process.list.map DialogInfo.peerId).length = process.list.length :=
      List.length_map _
    rw [List.map_append, List.map_singleton, DialogInfo.pushSplit_peerId,
      ← hlength]
    exact indexed_append h.indexed hnone peer j
  · intro other hother
    rcases List.mem_append.mp hother with hmem | hmem
    · exact h.found other hmem
    · rw [List.mem_singleton.mp hmem]
      simp [DialogInfo.pushSplit]
  · rw [exported, List.flatMap_append]
    exact h.perm.append (by simp [DialogInfo.pairs, DialogInfo.pushSplit, hinfo])

theorem modify_append_length {α : Type} (f : α → α) (list : List α) (a : α) :
    (list ++ [a]).modify list.length f = list ++ [f a] := by
  induction list with
  | nil => rfl
  | cons b list ih => exact congrArg (b :: ·) ih

theorem ChatsProcess.Logged.appendChat {process : ChatsProcess} {log : List Report}
    (h : process.Logged log) (splitIndex : ℕ) {info : DialogInfo} (hinfo : info.splits = []) :
    (process.appendChat splitIndex info).Logged (log ++ [(info.peerId, splitIndex)]) := by
  rcases hi : process.indexByPeer info.peerId with _ | i
  · have hnew := h.new splitIndex hinfo hi
    simpa only [ChatsProcess.appendChat, hi, modify_append_length] using hnew
  · simpa only [ChatsProcess.appendChat, hi] using h.modify hi

theorem ChatsProcess.Logged.appendAll {process : ChatsProcess} {log : List Report}
    (h : process.Logged log) {chats : List DialogInfo}
    (hchats : ∀ info ∈ chats, info.splits = []) :
    (chats.foldl (ChatsProcess.appendChat splitIndex) process).Logged
      (log ++ chats.map fun info => (info.peerId, splitIndex)) := by
  induction chats generalizing process log with
  | nil => simpa using h
  | cons info chats ih =>
    have hnext := ih (h.appendChat splitIndex (hchats info List.mem_cons_self))
      fun other hother => hchats other (List.mem_cons_of_mem _ hother)
    simpa using hnext

theorem ChatsProcess.Logged.appendChatsSlice {process : ChatsProcess} {log : List Report}
    (h : process.Logged log) (settings : Settings) (splitIndex : ℕ) {chats : List DialogInfo}
    (hchats : ∀ info ∈ chats, info.splits = []) :
    (process.appendChatsSlice settings chats splitIndex).Logged
      (log ++ reportsOf settings chats splitIndex) :=
  h.appendAll fun info hinfo => hchats info (List.mem_of_mem_filter hinfo)

theorem parseDialogsInfo_splits {data : Dialogs} {info : DialogInfo}
    (h : info ∈ parseDialogsInfo data) : info.splits = [] := by
  obtain ⟨dialog, -, rfl⟩ := List.mem_map.mp h
  rw [parseDialog]
  rcases data.peers dialog.peer with _ | (user | chat) <;> rfl

theorem parseLeftChannelsInfo_splits {chats : List Chat} {info : DialogInfo}
    (h : info ∈ parseLeftChannelsInfo chats) : info.splits = [] := by
  obtain ⟨chat, -, rfl⟩ := List.mem_map.mp h
  rfl

theorem DialogsAnswer.parsed_splits {answer : DialogsAnswer} {parsed : List DialogInfo × Bool}
    (h : answer.parsed = some parsed) {info : DialogInfo} (hinfo : info ∈ parsed.1) :
    info.splits = [] := by
  cases answer with
  | dialogs data =>
    obtain rfl := Option.some.inj h
    exact parseDialogsInfo_splits hinfo
  | dialogsSlice count data =>
    obtain rfl := Option.some.inj h
    exact parseDialogsInfo_splits hinfo
  | dialogsNotModified => cases h

/-! ## The finished list -/

theorem finalize_chats {info : DialogsInfo} {log : List Report} (h : Grouped info.chats log) :
    Grouped (finalizeDialogsInfo info settings).chats log := by
  refine Grouped.mapIdx ?_ h
  intro _ info
  exact ⟨rfl, List.reverse_perm info.splits⟩

theorem finalize_left_perm (info : DialogsInfo) :
    (exported (finalizeDialogsInfo info settings).left).Perm (exported info.left) := by
  refine exported_mapIdx_perm ?_ info.left
  intro _ info
  exact ⟨rfl, .refl info.splits⟩

/-! ## Runs -/

/-- What holds after the reports: they are in the two lists, and in the result when it is there. -/
structure State.Logged (settings : Settings) (s : State) (dialogs left : List Report) : Prop where
  inDialogs : s.dialogs.toChatsProcess.Logged dialogs
  inLeft : s.left.toChatsProcess.Logged left
  needed : settings.leftChannelsNeeded = false → left = [] ∧ s.phase ≠ .counting ∧ s.phase ≠ .left
  done : ∀ info, s.phase = .done info →
    Grouped info.chats dialogs ∧ (exported info.left).Perm left

theorem State.logged_start : (start settings splits).Logged settings [] [] where
  inDialogs := ChatsProcess.logged_nil
  inLeft := ChatsProcess.logged_nil
  needed h := by simp [start, h]
  done info h := by
    unfold start at h
    split at h <;> cases h

variable {s t : State} {dialogs left : List Report} {goOn : Bool}

theorem State.Logged.finish (h : s.Logged settings dialogs left) {list : List DialogInfo}
    (hlist : (exported list).Perm left) :
    (s.finishDialogsList settings list).Logged settings dialogs left where
  inDialogs := h.inDialogs
  inLeft := h.inLeft
  needed hneeded := ⟨(h.needed hneeded).1, by simp [finishDialogsList]⟩
  done := by
    rintro _ ⟨rfl⟩
    exact ⟨finalize_chats h.inDialogs.grouped, (finalize_left_perm ⟨_, list⟩).trans hlist⟩

theorem State.Logged.requestLeftChannelsIfNeeded (h : s.Logged settings dialogs left) :
    (s.requestLeftChannelsIfNeeded settings).Logged settings dialogs left := by
  unfold State.requestLeftChannelsIfNeeded
  split
  · rename_i hneeded
    exact ⟨h.inDialogs, h.inLeft, by simp [hneeded], by simp⟩
  · rename_i hneeded
    refine h.finish ?_
    rw [(h.needed (by simpa using hneeded)).1]
    exact .nil

/-- Another state of the dialogs with the same chats. -/
theorem State.Logged.withDialogs (h : s.Logged settings dialogs left) (hphase : s.phase = .dialogs)
    {process : DialogsProcess} {log : List Report} (hprocess : process.toChatsProcess.Logged log) :
    State.Logged settings { s with dialogs := process } log left where
  inDialogs := hprocess
  inLeft := h.inLeft
  needed := h.needed
  done info hdone := by
    rw [hphase] at hdone
    cases hdone

theorem State.Logged.withPhase (h : s.Logged settings dialogs left) {phase : Phase}
    (hphase : phase = .stopped ∨ phase = .error) :
    State.Logged settings { s with phase := phase } dialogs left where
  inDialogs := h.inDialogs
  inLeft := h.inLeft
  needed hneeded := by
    refine ⟨(h.needed hneeded).1, ?_⟩
    rcases hphase with rfl | rfl <;> simp
  done := by
    rcases hphase with rfl | rfl <;> simp

theorem State.Logged.gotDialogs (h : s.Logged settings dialogs left) (hphase : s.phase = .dialogs)
    (answer : DialogsAnswer) :
    (s.gotDialogs settings goOn answer).Logged settings
      (dialogs ++ answer.parsed.elim [] fun parsed =>
        reportsOf settings parsed.1 (s.dialogs.splitIndexPlusOne - 1)) left := by
  unfold State.gotDialogs
  rcases hparsed : answer.parsed with _ | ⟨chats, finished⟩
  · simpa using h.withPhase (.inr rfl)
  have hlog : (s.dialogs.appendDialogsSlice settings chats).toChatsProcess.Logged
      (dialogs ++ reportsOf settings chats (s.dialogs.splitIndexPlusOne - 1)) :=
    h.inDialogs.appendChatsSlice _ _ fun info => DialogsAnswer.parsed_splits hparsed
  simp only [Option.elim_some]
  split
  · exact (h.withDialogs hphase hlog).withPhase (.inl rfl)
  split
  · exact h.withDialogs hphase hlog
  split
  · exact (h.withDialogs hphase hlog).requestLeftChannelsIfNeeded
  split
  · exact h.withDialogs hphase hlog
  · refine State.Logged.requestLeftChannelsIfNeeded ?_
    exact h.withDialogs hphase hlog

theorem State.Logged.gotLeftChannels (h : s.Logged settings dialogs left)
    (hphase : s.phase = .counting ∨ s.phase = .left) (answer : ChatsAnswer) :
    (s.gotLeftChannels settings splits goOn answer).Logged settings dialogs
      (left ++ reportsOf settings (parseLeftChannelsInfo answer.list) (splits - 1)) := by
  have hlog := h.inLeft.appendChatsSlice settings (splits - 1)
    fun info (hinfo : info ∈ parseLeftChannelsInfo answer.list) =>
      parseLeftChannelsInfo_splits hinfo
  have hneeded : settings.leftChannelsNeeded ≠ false := by
    intro hneeded
    exact hphase.elim (h.needed hneeded).2.1 (h.needed hneeded).2.2
  have hlogged : State.Logged settings
      { s with left := s.left.appendLeftChannelsSlice settings splits answer } dialogs
      (left ++ reportsOf settings (parseLeftChannelsInfo answer.list) (splits - 1)) := by
    refine ⟨h.inDialogs, hlog, fun hnot => absurd hnot hneeded, ?_⟩
    intro info hdone
    rcases hphase with hphase | hphase <;> · rw [hphase] at hdone; cases hdone
  unfold State.gotLeftChannels
  rcases hphase with hphase | hphase
  · simp only [hphase]
    exact ⟨hlogged.inDialogs, hlogged.inLeft, fun hnot => absurd hnot hneeded, by simp⟩
  · simp only [hphase]
    split
    · exact hlogged.withPhase (.inl rfl)
    split
    · exact hlogged.finish hlog.perm
    · simpa only [hphase] using hlogged

theorem State.phase_of_getDialogs {i : ℕ} {date id : ℤ} {peer : InputPeer}
    (h : s.request = some (.getDialogs i date id peer)) :
    s.phase = .dialogs ∧ s.dialogs.splitIndexPlusOne - 1 = i := by
  unfold State.request at h
  split at h <;> simp_all

theorem State.phase_of_getLeftChannels {offset : ℕ}
    (h : s.request = some (.getLeftChannels offset)) :
    s.phase = .counting ∨ s.phase = .left := by
  unfold State.request at h
  split at h <;> simp_all

theorem Run.logged {exchanges : List Exchange} (run : Run settings splits s exchanges t)
    (h : s.Logged settings dialogs left) :
    t.Logged settings (dialogs ++ dialogReports settings exchanges)
      (left ++ leftReports settings splits exchanges) := by
  induction run generalizing dialogs left with
  | nil s => simpa [dialogReports, leftReports] using h
  | dialogs answer goOn hrequest run ih =>
    obtain ⟨hphase, rfl⟩ := State.phase_of_getDialogs hrequest
    have hlog := ih (h.gotDialogs hphase answer)
    simpa [dialogReports, leftReports, Exchange.dialogReports, Exchange.leftReports] using hlog
  | leftChannels answer goOn hrequest run ih =>
    have hlog := ih (h.gotLeftChannels (State.phase_of_getLeftChannels hrequest) answer)
    simpa [dialogReports, leftReports, Exchange.dialogReports, Exchange.leftReports] using hlog

/-- Each chat is exported once exactly when no chat is reported twice for one split. -/
theorem exportedOnce_iff {exchanges : List Exchange} {info : DialogsInfo}
    (run : Run settings splits (.start settings splits) exchanges s)
    (done : s.phase = .done info) :
    ExportedOnce info (dialogReports settings exchanges) ↔
      (dialogReports settings exchanges ++ leftReports settings splits exchanges).Nodup := by
  obtain ⟨hchats, hleft⟩ := (run.logged State.logged_start).done info done
  have hperm : (exported (info.chats ++ info.left)).Perm
      (dialogReports settings exchanges ++ leftReports settings splits exchanges) := by
    rw [exported, List.flatMap_append]
    exact hchats.perm.append hleft
  constructor
  · intro h
    exact hperm.nodup_iff.mp h.messages
  · intro h
    have hmessages := hperm.nodup_iff.mpr h
    refine ⟨hchats.peers, hchats.mem_peers, fun chat hchat => ⟨?_, hchats.mem_splits hchat⟩,
      hmessages⟩
    exact nodup_splits hmessages (List.mem_append_left _ hchat)


/-- A page with one personal chat. -/
def onePage : Dialogs where
  dialogs := [⟨userPeerId 7, 5⟩]
  peers _ := some (.user ⟨7, [], [], false, false, .user 7 1⟩)
  messages _ := some 1530000000

def personalOnly : Settings := ⟨Types.personalChats, Types.personalChats⟩

/-- The chat is found in two splits. -/
def twoSplits : List Exchange :=
  [.dialogs 1 0 0 .empty (.dialogs onePage) true, .dialogs 0 0 0 .empty (.dialogs onePage) true]

theorem exportedOnce_iff_two : ∃ s info,
    Run personalOnly 2 (.start personalOnly 2) twoSplits s ∧ s.phase = .done info ∧
      ExportedOnce info (dialogReports personalOnly twoSplits) := by
  have run : Run personalOnly 2 (.start personalOnly 2) twoSplits _ :=
    .dialogs _ _ rfl (.dialogs _ _ rfl (.nil _))
  refine ⟨_, _, run, rfl, (exportedOnce_iff run rfl).mpr ?_⟩
  decide

/-- A new message in another chat has moved the chat to the next page. -/
def twoPages : List Exchange :=
  [.dialogs 0 0 0 .empty (.dialogsSlice 2 onePage) true,
    .dialogs 0 1530000000 5 (.user 7 1) (.dialogs onePage) true]

theorem chat_exported_twice : ∃ s info,
    Run personalOnly 1 (.start personalOnly 1) twoPages s ∧ s.phase = .done info ∧
      info.chats.map DialogInfo.splits = [[0, 0]] ∧
        ¬ExportedOnce info (dialogReports personalOnly twoPages) := by
  have run : Run personalOnly 1 (.start personalOnly 1) twoPages _ :=
    .dialogs _ _ rfl (.dialogs _ _ rfl (.nil _))
  refine ⟨_, _, run, rfl, rfl, ?_⟩
  intro h
  have hnodup := (h.splits _ List.mem_cons_self).1
  exact absurd hnodup (by decide)

end Bettergram.Export.ChatsList
