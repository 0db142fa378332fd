import Mathlib.Data.List.Range
import Mathlib.Data.List.Infix
import Mathlib.Tactic.Linarith
import Bettergram.Export.ChatProcess

/-! # The pages of a chat

What was handed to the writer, the rest of the split and the later splits are all messages that
are expected, in their order, before and after each page. Each answer brings the end nearer: a
page takes messages from the rest, and a loaded file is settled.
-/

namespace Bettergram.Export

variable {Location Path Env : Type}

/-- The messages of the splits, by their place in the dialog; older messages have smaller ids. -/
structure Server where
  content : ℕ → List MessageData
  ascending : ∀ k, (content k).Pairwise fun a b => a.id < b.id
  positive : ∀ k, ∀ message ∈ content k, 1 ≤ message.id

namespace Server

variable (server : Server) (counts : List ℕ)

/-- The messages of the split from an id on; none if the split was counted as empty. -/
def rest (k : ℕ) (offset : ℤ) : List MessageData :=
  if counts.getD k 0 = 0 then [] else (server.content k).filter fun message => offset ≤ message.id

/-- The messages of the splits from `k` on. -/
def later (k : ℕ) : List MessageData :=
  (List.range' k (counts.length - k)).flatMap fun i => server.rest counts i 1

/-- How many answers the splits from `k` on may take. -/
def total (n k : ℕ) : ℕ :=
  ((List.range' k (n - k)).map fun i => 3 * (server.content i).length + 1).sum

variable {server counts}

theorem range'_eq {n k : ℕ} (h : k < n) :
    List.range' k (n - k) = k :: List.range' (k + 1) (n - (k + 1)) := by
  obtain ⟨d, hd⟩ : ∃ d, n - k = d + 1 := ⟨n - k - 1, by omega⟩
  have hnext : n - (k + 1) = d := by omega
  rw [hd, hnext, List.range'_succ]

theorem later_eq {k : ℕ} (h : k < counts.length) :
    server.later counts k = server.rest counts k 1 ++ server.later counts (k + 1) := by
  rw [later, range'_eq h, List.flatMap_cons, later]

theorem later_of_le {k : ℕ} (h : counts.length ≤ k) : server.later counts k = [] := by
  rw [later, Nat.sub_eq_zero_of_le h]
  rfl

theorem total_eq {n k : ℕ} (h : k < n) :
    server.total n k = 3 * (server.content k).length + 1 + server.total n (k + 1) := by
  rw [total, range'_eq h, List.map_cons, List.sum_cons, total]

theorem length_rest_le (k : ℕ) (offset : ℤ) :
    (server.rest counts k offset).length ≤ (server.content k).length := by
  unfold rest
  split_ifs
  · exact Nat.zero_le _
  · exact List.length_filter_le _ _

/-- A page that is not empty leaves the messages behind its last one. -/
theorem rest_succ {k : ℕ} {offset : ℤ} {page after : List MessageData} {last : MessageData}
    (hrest : server.rest counts k offset = page ++ after) (hlast : page.getLast? = some last) :
    server.rest counts k (last.id + 1) = after := by
  obtain ⟨front, rfl⟩ := List.getLast?_eq_some_iff.mp hlast
  by_cases hcount : counts.getD k 0 = 0
  · rw [rest, if_pos hcount] at hrest
    simp at hrest
  have hfilter : (server.content k).filter (fun message => offset ≤ message.id) =
      front ++ [last] ++ after := by
    rw [← hrest, rest, if_neg hcount]
  have hsorted : (front ++ [last] ++ after).Pairwise fun a b => a.id < b.id :=
    hfilter ▸ (server.ascending k).filter _
  have hoffset : offset ≤ last.id := by
    have hmem : last ∈ (server.content k).filter fun message => offset ≤ message.id := by
      rw [hfilter]
      simp
    exact of_decide_eq_true (List.mem_filter.mp hmem).2
  have htwice : (server.content k).filter (fun message => last.id + 1 ≤ message.id) =
      ((server.content k).filter fun message => offset ≤ message.id).filter
        fun message => last.id + 1 ≤ message.id := by
    rw [List.filter_filter]
    refine List.filter_congr fun message _ => ?_
    by_cases hid : last.id + 1 ≤ message.id
    · have hle : offset ≤ message.id := by omega
      simp [hid, hle]
    · simp [hid]
  obtain ⟨hfront, -, hacross⟩ := List.pairwise_append.mp hsorted
  obtain ⟨-, -, hbefore⟩ := List.pairwise_append.mp hfront
  rw [rest, if_neg hcount, htwice, hfilter, List.filter_append]
  have hpage : (front ++ [last]).filter (fun message => last.id + 1 ≤ message.id) = [] := by
    rw [List.filter_eq_nil_iff]
    intro message hmem
    rcases List.mem_append.mp hmem with hmem | hmem
    · have hlt := hbefore message hmem last List.mem_cons_self
      simp only [decide_eq_true_eq]
      omega
    · rw [List.mem_singleton.mp hmem]
      simp
  have hafter : after.filter (fun message => last.id + 1 ≤ message.id) = after := by
    rw [List.filter_eq_self]
    intro message hmem
    have hlt := hacross last (by simp) message hmem
    simp only [decide_eq_true_eq]
    omega
  rw [hpage, hafter, List.nil_append]

theorem rest_one {k : ℕ} (h : counts.getD k 0 ≠ 0) :
    server.rest counts k 1 = server.content k := by
  rw [rest, if_neg h, List.filter_eq_self]
  intro message hmem
  exact decide_eq_true (server.positive k message hmem)

end Server

/-! ## Files -/

namespace File

/-- The file is there, or will not be loaded. -/
def settled (file : File Location Path) : Bool :=
  file.relativePath.isSome || decide (file.skipReason ≠ .none)

end File

/-- How many files of the message may still be loaded. -/
def Message.unsettled (message : Message Location Path) : ℕ :=
  (if message.file.settled then 0 else 1) + if message.thumb.settled then 0 else 1

def unsettled (list : List (Message Location Path)) : ℕ := (list.map Message.unsettled).sum

/-- The messages without their files. -/
def dataOf (list : List (Message Location Path)) : List MessageData :=
  list.map fun message => message.toMessageData

theorem unsettled_le (list : List (Message Location Path)) :
    unsettled list ≤ 2 * list.length := by
  induction list with
  | nil => rfl
  | cons message list ih =>
    have hmessage : message.unsettled ≤ 2 := by
      unfold Message.unsettled
      split_ifs <;> omega
    rw [unsettled, List.map_cons, List.sum_cons, List.length_cons]
    rw [unsettled] at ih
    omega

theorem unsettled_set {list : List (Message Location Path)} {j : ℕ}
    {message : Message Location Path} (h : list[j]? = some message)
    (message' : Message Location Path) :
    unsettled (list.set j message') + message.unsettled =
      unsettled list + message'.unsettled := by
  induction list generalizing j with
  | nil => cases h
  | cons first list ih =>
    cases j with
    | zero =>
      cases h
      simp only [List.set_cons_zero, unsettled, List.map_cons, List.sum_cons]
      omega
    | succ j =>
      have hrest := ih h
      simp only [List.set_cons_succ, unsettled, List.map_cons, List.sum_cons] at hrest ⊢
      omega

theorem dataOf_set {list : List (Message Location Path)} {j : ℕ}
    {message message' : Message Location Path} (h : list[j]? = some message)
    (hdata : message'.toMessageData = message.toMessageData) :
    dataOf (list.set j message') = dataOf list := by
  induction list generalizing j with
  | nil => cases h
  | cons first list ih =>
    cases j with
    | zero =>
      cases h
      simp only [List.set_cons_zero, dataOf, List.map_cons, hdata]
    | succ j =>
      have hrest := ih h
      simp only [dataOf] at hrest
      simp only [List.set_cons_succ, dataOf, List.map_cons, hrest]

theorem settled_loaded (path : Option Path) (file : File Location Path) :
    (ApiWrap.loaded path file).settled = true := by
  cases path <;> simp [ApiWrap.loaded, File.settled]

variable (settings : Settings) (storage : Storage Location Path Env)

/-- A file is ready only when it is settled, and is loaded only when it is not. -/
theorem processFileLoad_spec (env : Env) (file : File Location Path)
    (message : Message Location Path) :
    (∃ file' env', processFileLoad settings storage env file message = .ready file' env' ∧
      file'.settled = true) ∨
    (processFileLoad settings storage env file message = .loading ∧ file.settled = false) ∨
    ∃ env', processFileLoad settings storage env file message = .ioError env' := by
  unfold processFileLoad
  by_cases hsettled : file.settled = true
  · rw [File.settled] at hsettled
    rw [if_pos hsettled]
    exact .inl ⟨file, env, rfl, hsettled⟩
  have hunsettled : ¬(file.relativePath.isSome || decide (file.skipReason ≠ .none)) = true :=
    hsettled
  rw [if_neg hunsettled]
  split
  · exact .inl ⟨_, _, rfl, by simp [File.settled]⟩
  · unfold writePreloadedFile
    cases file.location.bind (storage.find env) with
    | some path => exact .inl ⟨_, _, rfl, by simp [File.settled]⟩
    | none =>
      simp only
      by_cases hcontent : file.content.isEmpty = true
      · rw [if_pos hcontent]
        simp only
        split_ifs
        · exact .inl ⟨_, _, rfl, by simp [File.settled]⟩
        · exact .inl ⟨_, _, rfl, by simp [File.settled]⟩
        · exact .inl ⟨_, _, rfl, by simp [File.settled]⟩
        · exact .inr (.inl ⟨rfl, Bool.eq_false_of_not_eq_true hsettled⟩)
      · rw [if_neg hcontent]
        rcases storage.writeBlock env file with ⟨_ | path, env'⟩
        · exact .inr (.inr ⟨env', rfl⟩)
        · exact .inl ⟨_, _, rfl, by simp [File.settled]⟩

end Bettergram.Export
