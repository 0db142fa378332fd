import Mathlib.Data.List.Nodup
import Mathlib.Data.List.TakeDrop
import Mathlib.Tactic.Linarith

/-! # The photos of a user

A list has the newest photos of a user, the oldest of them first, and the number of all photos
when it is known. A query gives the ids around a photo and how many are skipped on each side.
-/

namespace Bettergram.Storage.UserPhotos

abbrev PhotoId := ℕ

structure PhotoList where
  count : Option ℤ := none
  photoIds : List PhotoId := []
  deriving DecidableEq

structure QueryResult where
  count : Option ℤ := none
  skippedBefore : Option ℤ := none
  skippedAfter : ℤ := 0
  photoIds : List PhotoId := []
  deriving DecidableEq

namespace PhotoList

def addNew (photoId : PhotoId) (list : PhotoList) : PhotoList :=
  if photoId ∈ list.photoIds then list
  else { count := list.count.map (· + 1), photoIds := list.photoIds ++ [photoId] }

def pushFront (photoIds : List PhotoId) (photoId : PhotoId) : List PhotoId :=
  if photoId ∈ photoIds then photoIds else photoId :: photoIds

/-- An `int` where a `size_t` is compared with it. -/
def toSizeT (n : ℤ) : ℤ := n % 2 ^ 64

def addSlice (photoIds : List PhotoId) (count : ℤ) (list : PhotoList) : PhotoList :=
  let known := photoIds.foldl pushFront list.photoIds
  { count := if toSizeT count < known.length ∨ photoIds = [] then some known.length else some count
    photoIds := known }

def removeOne (photoId : PhotoId) (list : PhotoList) : PhotoList :=
  if photoId ∈ list.photoIds then
    { count := list.count.map (· - 1), photoIds := list.photoIds.erase photoId }
  else { list with count := none }

def removeAfter (photoId : PhotoId) (list : PhotoList) : PhotoList :=
  let position := list.photoIds.idxOf photoId
  if position = list.photoIds.length then { count := none, photoIds := [] }
  else
    { count := list.count.map (· - (list.photoIds.length - position : ℕ))
      photoIds := list.photoIds.take position }

/-- There is no result for an unknown photo when the count is not known either. -/
def query (list : PhotoList) (photoId : PhotoId) (limitBefore limitAfter : ℕ) :
    Option QueryResult :=
  let result : QueryResult := { count := list.count }
  let position := list.photoIds.idxOf photoId
  if position ≠ list.photoIds.length then
    let haveBefore := position
    let haveEqualOrAfter := list.photoIds.length - position
    let before := min haveBefore limitBefore
    let equalOrAfter := min haveEqualOrAfter (limitAfter + 1)
    let result :=
      { result with
        photoIds := (list.photoIds.drop (position - before)).take (before + equalOrAfter) }
    let skippedInIds : ℤ := haveBefore - before
    let result :=
      { result with
        skippedBefore := list.count.map (· + (-list.photoIds.length + skippedInIds)) }
    let result := { result with skippedBefore := some (haveBefore - before) }
    some { result with skippedAfter := haveEqualOrAfter - equalOrAfter }
  else if list.count.isSome then some result
  else none

end PhotoList

inductive Operation where
  | addNew (photoId : PhotoId)
  | addSlice (photoIds : List PhotoId) (count : ℤ)
  | removeOne (photoId : PhotoId)
  | removeAfter (photoId : PhotoId)

def Operation.apply (list : PhotoList) : Operation → PhotoList
  | .addNew photoId => list.addNew photoId
  | .addSlice photoIds count => list.addSlice photoIds count
  | .removeOne photoId => list.removeOne photoId
  | .removeAfter photoId => list.removeAfter photoId

/-- A list after the operations. -/
def run (operations : List Operation) : PhotoList := operations.foldl Operation.apply {}

/-! ## Counting -/

/-- Counts of slices are numbers of photos. -/
def Operation.Counts : Operation → Prop
  | .addSlice _ count => 0 ≤ count
  | _ => True

/-- No id is there twice, and the count is not below their number. -/
structure Known (list : PhotoList) : Prop where
  nodup : list.photoIds.Nodup
  count : ∀ count, list.count = some count → list.photoIds.length ≤ count

variable {list : PhotoList} {photoId : PhotoId}

theorem Known.addNew (h : Known list) : Known (list.addNew photoId) := by
  unfold PhotoList.addNew
  split
  · exact h
  · rename_i hnew
    refine ⟨List.nodup_append.mpr ⟨h.nodup, List.nodup_singleton _, ?_⟩, ?_⟩
    · intro a ha b hb heq
      rw [List.mem_singleton.mp hb] at heq
      exact hnew (heq ▸ ha)
    · intro count hcount
      obtain ⟨before, hbefore, rfl⟩ := Option.map_eq_some_iff.mp hcount
      have hle := h.count before hbefore
      rw [List.length_append, List.length_singleton]
      omega

theorem nodup_pushFront {known : List PhotoId} (h : known.Nodup) :
    (PhotoList.pushFront known photoId).Nodup := by
  unfold PhotoList.pushFront
  split
  · exact h
  · rename_i hnew
    exact List.nodup_cons.mpr ⟨hnew, h⟩

theorem nodup_foldl_pushFront {known : List PhotoId} (h : known.Nodup) (photoIds : List PhotoId) :
    (photoIds.foldl PhotoList.pushFront known).Nodup := by
  induction photoIds generalizing known with
  | nil => exact h
  | cons photoId photoIds ih => exact ih (nodup_pushFront h)

theorem Known.addSlice (h : Known list) (photoIds : List PhotoId) {count : ℤ} (hcount : 0 ≤ count) :
    Known (list.addSlice photoIds count) := by
  refine ⟨nodup_foldl_pushFront h.nodup photoIds, ?_⟩
  intro n hn
  simp only [PhotoList.addSlice] at hn ⊢
  split at hn
  · rw [← Option.some.inj hn]
  · rename_i hnot
    rw [← Option.some.inj hn]
    have hle := not_lt.mp fun hlt => hnot (.inl hlt)
    unfold PhotoList.toSizeT at hle
    omega

theorem Known.removeOne (h : Known list) : Known (list.removeOne photoId) := by
  unfold PhotoList.removeOne
  split
  · rename_i hmem
    refine ⟨h.nodup.erase photoId, ?_⟩
    intro count hcount
    obtain ⟨before, hbefore, rfl⟩ := Option.map_eq_some_iff.mp hcount
    have hle := h.count before hbefore
    have hlength := List.length_erase_add_one hmem
    dsimp only
    omega
  · exact ⟨h.nodup, fun _ hnone => by cases hnone⟩

theorem Known.removeAfter (h : Known list) : Known (list.removeAfter photoId) := by
  unfold PhotoList.removeAfter
  dsimp only
  split
  · exact ⟨List.nodup_nil, fun _ hnone => by cases hnone⟩
  · refine ⟨h.nodup.sublist (List.take_sublist _ _), ?_⟩
    intro count hcount
    obtain ⟨before, hbefore, rfl⟩ := Option.map_eq_some_iff.mp hcount
    have hle := h.count before hbefore
    have hposition := List.idxOf_le_length (a := photoId) (l := list.photoIds)
    rw [List.length_take]
    omega

theorem Known.apply (h : Known list) {operation : Operation} (hcounts : operation.Counts) :
    Known (operation.apply list) := by
  cases operation with
  | addNew photoId => exact h.addNew
  | addSlice photoIds count => exact h.addSlice photoIds hcounts
  | removeOne photoId => exact h.removeOne
  | removeAfter photoId => exact h.removeAfter

theorem known_run {operations : List Operation}
    (hcounts : ∀ operation ∈ operations, operation.Counts) : Known (run operations) := by
  have hfold : ∀ list, Known list → Known (operations.foldl Operation.apply list) := by
    intro list hlist
    induction operations generalizing list with
    | nil => exact hlist
    | cons operation operations ih =>
      exact ih (fun other hother => hcounts other (List.mem_cons_of_mem _ hother)) _
        (hlist.apply (hcounts operation List.mem_cons_self))
  exact hfold {} ⟨List.nodup_nil, fun _ hnone => by cases hnone⟩

/-! ## Queries -/

/-- The ids of the result are known ones around the photo, as many as the limits allow. -/
structure Around (list : PhotoList) (photoId : PhotoId) (limitBefore limitAfter : ℕ)
    (result : QueryResult) (older before after newer : List PhotoId) : Prop where
  known : list.photoIds = older ++ (before ++ photoId :: after) ++ newer
  photoIds : result.photoIds = before ++ photoId :: after
  length_before : before.length = min (older.length + before.length) limitBefore
  length_after : after.length = min (after.length + newer.length) limitAfter

/-- A query of the photo is right: its ids are around it, and with the skipped ones they add up
to the count. -/
def QueryRight (list : PhotoList) (photoId : PhotoId) (limitBefore limitAfter : ℕ) : Prop :=
  ∃ result, list.query photoId limitBefore limitAfter = some result ∧
    (∃ older before after newer,
      Around list photoId limitBefore limitAfter result older before after newer) ∧
    ∀ count, list.count = some count →
      ∃ skippedBefore, result.skippedBefore = some skippedBefore ∧
        skippedBefore + result.photoIds.length + result.skippedAfter = count

/-- What a query of a known photo gives. -/
theorem query_known (h : photoId ∈ list.photoIds) (limitBefore limitAfter : ℕ) :
    ∃ result older before after newer,
      list.query photoId limitBefore limitAfter = some result ∧
      Around list photoId limitBefore limitAfter result older before after newer ∧
      result.skippedBefore = some (older.length : ℤ) ∧ result.skippedAfter = newer.length := by
  obtain ⟨front, back, hlist, hnot⟩ := List.eq_append_cons_of_mem h
  have hposition : list.photoIds.idxOf photoId = front.length := by
    rw [hlist, List.idxOf_append_of_notMem hnot, List.idxOf_cons_self, Nat.add_zero]
  have hlength : list.photoIds.length = front.length + (back.length + 1) := by
    rw [hlist, List.length_append, List.length_cons]
  have hafter : min (back.length + 1) (limitAfter + 1) = min back.length limitAfter + 1 := by omega
  have hcut : front.length - (front.length - min front.length limitBefore) =
      min front.length limitBefore := by omega
  refine ⟨_, front.take (front.length - min front.length limitBefore),
    front.drop (front.length - min front.length limitBefore), back.take limitAfter,
    back.drop limitAfter, if_pos (by rw [hposition, hlength]; omega), ⟨?_, ?_, ?_, ?_⟩, ?_, ?_⟩
  · rw [hlist, ← List.append_assoc, List.take_append_drop, List.append_assoc, List.cons_append,
      List.take_append_drop]
  · have hids : list.photoIds = front.take (front.length - min front.length limitBefore) ++
        (front.drop (front.length - min front.length limitBefore) ++
          photoId :: back.take limitAfter ++ back.drop limitAfter) := by
      rw [hlist, List.append_assoc, List.cons_append, List.take_append_drop, ← List.append_assoc,
        List.take_append_drop]
    dsimp only
    rw [hposition, hlength, Nat.add_sub_cancel_left, hafter]
    conv_lhs => rw [hids]
    rw [List.drop_left' (by rw [List.length_take]; omega)]
    refine List.take_left' ?_
    rw [List.length_append, List.length_drop, List.length_cons, List.length_take, hcut,
      Nat.min_comm limitAfter]
  · rw [List.length_take, List.length_drop]
    omega
  · rw [List.length_take, List.length_drop]
    omega
  · dsimp only
    rw [hposition, List.length_take]
    congr 1
    omega
  · dsimp only
    rw [hposition, hlength, List.length_drop]
    omega

theorem queryRight_iff (h : photoId ∈ list.photoIds) (limitBefore limitAfter : ℕ) :
    QueryRight list photoId limitBefore limitAfter ↔
      ∀ count, list.count = some count → count = list.photoIds.length := by
  obtain ⟨result, older, before, after, newer, hquery, haround, hbefore, hafter⟩ :=
    query_known h limitBefore limitAfter
  have hsum : (older.length + result.photoIds.length + result.skippedAfter : ℤ) =
      list.photoIds.length := by
    rw [hafter, haround.photoIds, haround.known]
    simp only [List.length_append]
    omega
  constructor
  · rintro ⟨other, hother, -, hcounts⟩ count hcount
    obtain rfl := Option.some.inj (hquery.symm.trans hother)
    obtain ⟨skipped, hskipped, rfl⟩ := hcounts count hcount
    obtain rfl := Option.some.inj (hbefore.symm.trans hskipped)
    exact hsum
  · intro hall
    refine ⟨result, hquery, ⟨older, before, after, newer, haround⟩, fun count hcount => ?_⟩
    exact ⟨_, hbefore, hsum.trans (hall count hcount).symm⟩

/-- After any operations the ids are there once and the count is not below their number; a query
of a known photo is right exactly when all photos are known or their number is not. -/
theorem photos_counted_iff {operations : List Operation}
    (hcounts : ∀ operation ∈ operations, operation.Counts) :
    (run operations).photoIds.Nodup ∧
      (∀ count, (run operations).count = some count →
        (run operations).photoIds.length ≤ count) ∧
      ∀ photoId ∈ (run operations).photoIds, ∀ limitBefore limitAfter,
        (QueryRight (run operations) photoId limitBefore limitAfter ↔
          ∀ count, (run operations).count = some count →
            count = (run operations).photoIds.length) :=
  ⟨(known_run hcounts).nodup, (known_run hcounts).count, fun _ => queryRight_iff⟩


/-- All of three photos are known, and their number. -/
theorem photos_counted_iff_all :
    QueryRight (run [.addSlice [3, 2] 3, .addSlice [1] 3]) 2 0 0 := by
  have hcounts : ∀ operation ∈ [Operation.addSlice [3, 2] 3, .addSlice [1] 3],
      operation.Counts := by
    simp [Operation.Counts]
  exact ((photos_counted_iff hcounts).2.2 2 (by decide) 0 0).mpr (by decide)

/-- With the two newest of three photos the sum is two. -/
theorem newest_two_not_right : ¬QueryRight (run [.addSlice [3, 2] 3]) 2 5 5 := by
  rintro ⟨result, hresult, -, hcounts⟩
  obtain ⟨skipped, hskipped, hsum⟩ := hcounts 3 (by decide)
  obtain rfl : QueryResult.mk (some 3) (some 0) 0 [2, 3] = result :=
    Option.some.inj ((by decide : PhotoList.query _ 2 5 5 = some _).symm.trans hresult)
  obtain rfl := Option.some.inj hskipped
  exact absurd hsum (by decide)

end Bettergram.Storage.UserPhotos

/-! ## The photos that the server has

When all operations report what the server does, the known ids are its newest ones, and a known
count is the number of all.
-/

namespace Bettergram.Storage.UserPhotos

/-- The photos of the server, the newest first, with a list that was told of every change. -/
inductive Reached : List PhotoId → PhotoList → Prop
  | start {server} : server.Nodup → Reached server {}
  | addNew {server list} (photoId) : Reached server list → photoId ∉ server →
    Reached (photoId :: server) (list.addNew photoId)
  | addSlice {server list} (n) : Reached server list → server.length < 2 ^ 31 →
    (n = 0 → server.length = list.photoIds.length) →
    Reached server
      (list.addSlice ((server.drop list.photoIds.length).take n) server.length)
  | removeOne {server list} (photoId) : Reached server list → photoId ∈ server →
    Reached (server.erase photoId) (list.removeOne photoId)
  | removeAfter {server list} (photoId) : Reached server list → photoId ∈ server →
    Reached (server.drop (server.idxOf photoId + 1)) (list.removeAfter photoId)

/-- The known ids are the newest of the server, and the count is its number of photos. -/
structure Newest (server : List PhotoId) (list : PhotoList) : Prop where
  nodup : server.Nodup
  newest : ∃ rest, server = list.photoIds.reverse ++ rest
  count : ∀ count, list.count = some count → count = server.length

variable {server : List PhotoId} {list : PhotoList} {photoId : PhotoId}

theorem Newest.addNew (h : Newest server list) (hnew : photoId ∉ server) :
    Newest (photoId :: server) (list.addNew photoId) := by
  obtain ⟨rest, hrest⟩ := h.newest
  have hunknown : photoId ∉ list.photoIds := by
    intro hmem
    rw [hrest] at hnew
    exact hnew (List.mem_append_left _ (List.mem_reverse.mpr hmem))
  rw [PhotoList.addNew, if_neg hunknown]
  refine ⟨List.nodup_cons.mpr ⟨hnew, h.nodup⟩, ⟨rest, by rw [hrest]; simp⟩, ?_⟩
  intro count hcount
  obtain ⟨before, hbefore, rfl⟩ := Option.map_eq_some_iff.mp hcount
  rw [h.count before hbefore, List.length_cons]
  rfl

theorem foldl_pushFront {known photoIds : List PhotoId} (h : (known.reverse ++ photoIds).Nodup) :
    photoIds.foldl PhotoList.pushFront known = photoIds.reverse ++ known := by
  induction photoIds generalizing known with
  | nil => rfl
  | cons photoId photoIds ih =>
    have hnew : photoId ∉ known := by
      intro hmem
      exact (List.nodup_append.mp h).2.2 photoId (List.mem_reverse.mpr hmem) photoId
        List.mem_cons_self rfl
    have hfront : ((photoId :: known).reverse ++ photoIds).Nodup := by simpa using h
    rw [List.foldl_cons, PhotoList.pushFront, if_neg hnew, ih hfront]
    simp

theorem Newest.addSlice (h : Newest server list) {n : ℕ} (hlength : server.length < 2 ^ 31)
    (hall : n = 0 → server.length = list.photoIds.length) :
    Newest server (list.addSlice ((server.drop list.photoIds.length).take n) server.length) := by
  obtain ⟨rest, hrest⟩ := h.newest
  have hdrop : server.drop list.photoIds.length = rest := by
    rw [hrest, List.drop_left' List.length_reverse]
  have hsplit : server = (list.photoIds.reverse ++ rest.take n) ++ rest.drop n := by
    rw [List.append_assoc, List.take_append_drop, hrest]
  have hnodup : (list.photoIds.reverse ++ rest.take n).Nodup := by
    have hserver := h.nodup
    rw [hsplit] at hserver
    exact (List.nodup_append.mp hserver).1
  have hknown := foldl_pushFront hnodup
  have hsum := congrArg List.length hsplit
  rw [List.length_append, List.length_append, List.length_reverse] at hsum
  rw [PhotoList.addSlice, hdrop, hknown]
  refine ⟨h.nodup, ⟨rest.drop n, by simp [hrest]⟩, ?_⟩
  intro count hcount
  dsimp only at hcount
  split at hcount
  · rename_i hless
    obtain rfl := Option.some.inj hcount
    rw [List.length_append, List.length_reverse] at hless ⊢
    rcases hless with hless | hnil
    · unfold PhotoList.toSizeT at hless
      omega
    · -- an empty slice comes when all photos are known
      have hempty : (rest.drop n).length = 0 := by
        rcases List.take_eq_nil_iff.mp hnil with hzero | hzero
        · have hknownAll := hall hzero
          omega
        · simp [hzero]
      omega
  · exact (Option.some.inj hcount).symm

theorem Newest.removeOne (h : Newest server list) (hmem : photoId ∈ server) :
    Newest (server.erase photoId) (list.removeOne photoId) := by
  obtain ⟨rest, hrest⟩ := h.newest
  unfold PhotoList.removeOne
  split
  · rename_i hknown
    refine ⟨h.nodup.erase photoId, ⟨rest, ?_⟩, ?_⟩
    · have hnodup : list.photoIds.reverse.Nodup := by
        have hserver := h.nodup
        rw [hrest] at hserver
        exact (List.nodup_append.mp hserver).1
      rw [hrest, List.erase_append_left _ (List.mem_reverse.mpr hknown), hnodup.erase_eq_filter,
        (List.nodup_reverse.mp hnodup).erase_eq_filter, List.filter_reverse]
    · intro count hcount
      obtain ⟨before, hbefore, rfl⟩ := Option.map_eq_some_iff.mp hcount
      have hless := List.length_erase_add_one hmem
      rw [h.count before hbefore]
      omega
  · rename_i hunknown
    refine ⟨h.nodup.erase photoId, ⟨rest.erase photoId, ?_⟩, fun _ hnone => by cases hnone⟩
    rw [hrest, List.erase_append_right _ (by rwa [List.mem_reverse])]

theorem Newest.removeAfter (h : Newest server list) :
    Newest (server.drop (server.idxOf photoId + 1)) (list.removeAfter photoId) := by
  obtain ⟨rest, hrest⟩ := h.newest
  have hnodup : (server.drop (server.idxOf photoId + 1)).Nodup :=
    h.nodup.sublist (List.drop_sublist _ _)
  unfold PhotoList.removeAfter
  dsimp only
  split
  · exact ⟨hnodup, ⟨_, rfl⟩, fun _ hnone => by cases hnone⟩
  · rename_i hposition
    have hknown : photoId ∈ list.photoIds :=
      List.idxOf_lt_length_iff.mp (lt_of_le_of_ne List.idxOf_le_length hposition)
    obtain ⟨older, newer, hlist, hnot⟩ := List.eq_append_cons_of_mem hknown
    have hplace : list.photoIds.idxOf photoId = older.length := by
      rw [hlist, List.idxOf_append_of_notMem hnot, List.idxOf_cons_self, Nat.add_zero]
    have hserver : server = newer.reverse ++ photoId :: (older.reverse ++ rest) := by
      rw [hrest, hlist]
      simp
    have hnewer : photoId ∉ newer.reverse := by
      intro hmem
      have hnodup' := h.nodup
      rw [hserver] at hnodup'
      exact (List.nodup_append.mp hnodup').2.2 photoId hmem photoId List.mem_cons_self rfl
    have hindex : server.idxOf photoId = newer.length := by
      rw [hserver, List.idxOf_append_of_notMem hnewer, List.idxOf_cons_self, Nat.add_zero,
        List.length_reverse]
    have hdrop : server.drop (server.idxOf photoId + 1) = older.reverse ++ rest := by
      rw [hindex]
      conv_lhs => rw [hserver]
      rw [← List.drop_drop, List.drop_left' List.length_reverse]
      rfl
    refine ⟨hnodup, ⟨rest, ?_⟩, ?_⟩
    · rw [hdrop]
      dsimp only
      rw [hplace, hlist, List.take_left' rfl]
    · intro count hcount
      obtain ⟨before, hbefore, rfl⟩ := Option.map_eq_some_iff.mp hcount
      rw [h.count before hbefore, hdrop, hplace, hlist, hserver]
      simp only [List.length_append, List.length_cons, List.length_reverse]
      omega

theorem Reached.newest (h : Reached server list) : Newest server list := by
  induction h with
  | start hnodup => exact ⟨hnodup, ⟨_, rfl⟩, fun _ hnone => by cases hnone⟩
  | addNew photoId _ hnew ih => exact ih.addNew hnew
  | addSlice n _ hlength hall ih => exact ih.addSlice hlength hall
  | removeOne photoId _ hmem ih => exact ih.removeOne hmem
  | removeAfter photoId _ _ ih => exact ih.removeAfter

/-- Of a list with a count, a query of a known photo is right when all photos are known. -/
theorem Reached.queryRight_iff (h : Reached server list) {count : ℤ} (hcount : list.count = some count)
    (hknown : photoId ∈ list.photoIds) (limitBefore limitAfter : ℕ) :
    QueryRight list photoId limitBefore limitAfter ↔ list.photoIds = server.reverse := by
  obtain ⟨rest, hrest⟩ := h.newest.newest
  have hlength := h.newest.count count hcount
  rw [UserPhotos.queryRight_iff hknown]
  constructor
  · intro hall
    have hsum := congrArg List.length hrest
    rw [List.length_append, List.length_reverse] at hsum
    have hempty : rest = [] := List.eq_nil_of_length_eq_zero (by
      have := hall count hcount
      omega)
    rw [hrest, hempty, List.append_nil, List.reverse_reverse]
  · intro hall other hother
    rw [h.newest.count other hother, hall, List.length_reverse]

end Bettergram.Storage.UserPhotos
