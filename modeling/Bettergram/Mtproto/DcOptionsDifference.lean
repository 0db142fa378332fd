import Mathlib.Data.List.Perm.Subperm
import Bettergram.Mtproto.DcOptions

/-! # What the list from the server changes

The two sorted maps are walked side by side, and the ids are reported for which
they have other addresses.
-/

namespace Bettergram.Mtproto
open Foundation

namespace DcData

variable {data a b : DcData} {dcId : DcId} {m n : List Endpoint}

/-! ## Endpoints after an option -/

theorem endpoints_of_some (h : data.map[dcId]? = some m) : data.endpoints dcId = m := by
  rw [endpoints, h, Option.getD_some]

theorem endpoints_of_none (h : data.map[dcId]? = none) : data.endpoints dcId = [] := by
  rw [endpoints, h, Option.getD_none]

/-- A data center that is not known has no endpoints, and one that is has some. -/
theorem endpoints_eq_nil : data.endpoints dcId = [] ↔ data.map[dcId]? = none := by
  cases h : data.map[dcId]? with
  | none => simp [endpoints_of_none h]
  | some l => simp [endpoints_of_some h, (data.wellFormed dcId l h).notEmpty]

theorem endpoints_nodup (data : DcData) (dcId : DcId) :
    ((data.endpoints dcId).map Endpoint.address).Nodup := by
  cases h : data.map[dcId]? with
  | none => simp [endpoints_of_none h]
  | some l => exact endpoints_of_some h ▸ (data.wellFormed dcId l h).nodup

theorem id_of_mem_endpoints {e : Endpoint} (h : e ∈ data.endpoints dcId) : e.id = dcId := by
  cases hk : data.map[dcId]? with
  | none => simp [endpoints_of_none hk] at h
  | some l => exact (data.wellFormed dcId l hk).ids e (endpoints_of_some hk ▸ h)

/-- The first endpoint with an address stays. -/
def addNew (endpoints : List Endpoint) (e : Endpoint) : List Endpoint :=
  if endpoints.any e.sameAddress then endpoints else endpoints ++ [e]

theorem applyOneOption_fst (data : DcData) (e : Endpoint) :
    (data.applyOneOption e).1 = !(data.endpoints e.id).any e.sameAddress := by
  rw [applyOneOption]
  split
  · next l h =>
    rw [endpoints_of_some h]
    split_ifs with hsame
    · simp [hsame]
    · simp [hsame]
  · next h => simp [endpoints_of_none h]

theorem applyOneOption_endpoints (data : DcData) (e : Endpoint) (dcId : DcId) :
    (data.applyOneOption e).2.endpoints dcId =
      if e.id = dcId then addNew (data.endpoints dcId) e else data.endpoints dcId := by
  rw [applyOneOption, addNew]
  split
  · next l h =>
    by_cases heq : e.id = dcId
    · subst heq
      rw [if_pos rfl, endpoints_of_some h]
      split_ifs with hsame
      · exact endpoints_of_some h
      · exact endpoints_of_some ((insert_getElem? _ _ _ _).trans (if_pos rfl))
    · rw [if_neg heq]
      split_ifs
      · rfl
      · rw [endpoints, endpoints, insert_getElem?, if_neg heq]
  · next h =>
    by_cases heq : e.id = dcId
    · subst heq
      rw [if_pos rfl, endpoints_of_none h]
      exact endpoints_of_some ((insert_getElem? _ _ _ _).trans (if_pos rfl))
    · rw [if_neg heq, endpoints, endpoints, insert_getElem?, if_neg heq]

theorem applyAll_endpoints (data : DcData) (es : List Endpoint) (dcId : DcId) :
    (data.applyAll es).endpoints dcId =
      (es.filter (·.id = dcId)).foldl addNew (data.endpoints dcId) := by
  induction es generalizing data with
  | nil => rfl
  | cons e es ih =>
    rw [applyAll, List.foldl_cons, ← applyAll, ih, applyOneOption_endpoints, List.filter_cons]
    by_cases heq : e.id = dcId
    · simp [heq]
    · simp [heq]

theorem foldl_addNew (es endpoints : List Endpoint) :
    es.foldl addNew endpoints =
      List.eraseDupsBy.loop Endpoint.sameAddress es endpoints.reverse := by
  induction es generalizing endpoints with
  | nil => simp [List.eraseDupsBy.loop]
  | cons e es ih =>
    rw [List.foldl_cons, ih, List.eraseDupsBy.loop, List.any_reverse, addNew]
    cases endpoints.any e.sameAddress with
    | true => rfl
    | false => simp

/-- From an empty map the first option for each address is left. -/
theorem applyAll_empty_endpoints (es : List Endpoint) (dcId : DcId) :
    (empty.applyAll es).endpoints dcId =
      (es.filter (·.id = dcId)).eraseDupsBy Endpoint.sameAddress := by
  rw [applyAll_endpoints, endpoints_of_none (by simp [empty]), foldl_addNew]
  rfl

theorem mem_map_applyAll_empty {es : List Endpoint} :
    (empty.applyAll es).map[dcId]? ≠ none ↔ ∃ e ∈ es, e.id = dcId := by
  rw [ne_eq, ← endpoints_eq_nil, applyAll_empty_endpoints]
  constructor
  · intro hne
    by_contra hnone
    have hnil : es.filter (·.id = dcId) = [] := by
      rw [List.filter_eq_nil_iff]
      exact fun e he heq => hnone ⟨e, he, by simpa using heq⟩
    exact hne (by rw [hnil]; rfl)
  · rintro ⟨e, he, hid⟩ hnil
    have hmem : e ∈ es.filter (·.id = dcId) := List.mem_filter.mpr ⟨he, by simpa using hid⟩
    generalize es.filter (·.id = dcId) = l at hmem hnil
    cases l with
    | nil => simp at hmem
    | cons x l => simp [List.eraseDupsBy_cons] at hnil

/-! ## The walk over both maps -/

/-- The same addresses are known. -/
def SameAddresses (m n : List Endpoint) : Prop :=
  ∀ address, address ∈ m.map Endpoint.address ↔ address ∈ n.map Endpoint.address

theorem equal_iff (hm : (m.map Endpoint.address).Nodup) (hn : (n.map Endpoint.address).Nodup) :
    equal m n ↔ SameAddresses m n := by
  have hfind : (m.all fun e => n.any e.sameAddress) ↔
      ∀ address ∈ m.map Endpoint.address, address ∈ n.map Endpoint.address := by
    simp only [List.all_eq_true, List.any_eq_true, Endpoint.sameAddress_iff, List.forall_mem_map]
    refine forall₂_congr fun e _ => ?_
    rw [List.mem_map]
    exact exists_congr fun e' => and_congr_right fun _ => eq_comm
  rw [equal, Bool.decide_and, Bool.and_eq_true, decide_eq_true_eq, Bool.decide_coe, hfind]
  constructor
  · rintro ⟨hlength, hsub⟩ address
    refine ⟨hsub address, fun hmem => ?_⟩
    have hperm := (hm.subperm hsub).perm_of_length_le (by simp [hlength])
    exact hperm.mem_iff.mpr hmem
  · intro hsame
    have hperm := (List.perm_ext_iff_of_nodup hm hn).mpr hsame
    exact ⟨by simpa using hperm.length_eq, fun address => (hsame address).mp⟩

/-- Two lists of entries say the same of an id. -/
inductive Agree (a b : List (DcId × List Endpoint)) (dcId : DcId) : Prop
  | unknown (ha : ∀ m, (dcId, m) ∉ a) (hb : ∀ n, (dcId, n) ∉ b)
  | equal (m n : List Endpoint) (ha : (dcId, m) ∈ a) (hb : (dcId, n) ∈ b) (heq : equal m n)

abbrev Sorted (a : List (DcId × List Endpoint)) : Prop := a.Pairwise fun x y => x.1 < y.1

/-- The end of the lists is taken for the greatest id, so that it has to be in both of them. -/
abbrev SameEnd (a b : List (DcId × List Endpoint)) : Prop :=
  (∃ m, (Int32.maxValue, m) ∈ a) ↔ ∃ n, (Int32.maxValue, n) ∈ b

theorem known_of_not_agree {a b : List (DcId × List Endpoint)} (h : ¬ Agree a b dcId) :
    (∃ m, (dcId, m) ∈ a) ∨ ∃ n, (dcId, n) ∈ b := by
  by_contra hnone
  rw [not_or, not_exists, not_exists] at hnone
  exact h (.unknown hnone.1 hnone.2)

/-- An entry that only the first list has is a difference. -/
theorem agree_cons_left {a b : List (DcId × List Endpoint)} {aId : DcId}
    (hb : ∀ y ∈ b, aId < y.1) : Agree ((aId, m) :: a) b dcId ↔ dcId ≠ aId ∧ Agree a b dcId := by
  have hne : ∀ n, (aId, n) ∉ b := fun n hn => Int32.lt_irrefl (hb (aId, n) hn)
  constructor
  · rintro (⟨hnone, hb'⟩ | ⟨m', n', hm, hn, heq⟩)
    · refine ⟨?_, .unknown (fun m' hm => hnone m' (List.mem_cons_of_mem _ hm)) hb'⟩
      rintro rfl
      exact hnone m (by simp)
    · have hid : dcId ≠ aId := by
        rintro rfl
        exact hne n' hn
      refine ⟨hid, .equal m' n' ((List.mem_cons.mp hm).resolve_left fun hhead => ?_) hn heq⟩
      exact hid (congrArg Prod.fst hhead)
  · rintro ⟨hid, ⟨ha, hb'⟩ | ⟨m', n', hm, hn, heq⟩⟩
    · refine .unknown (fun m' hm => ?_) hb'
      obtain hhead | hm := List.mem_cons.mp hm
      · exact hid (congrArg Prod.fst hhead)
      · exact ha m' hm
    · exact .equal m' n' (List.mem_cons_of_mem _ hm) hn heq

theorem agree_cons_right {a b : List (DcId × List Endpoint)} {bId : DcId}
    (ha : ∀ x ∈ a, bId < x.1) : Agree a ((bId, n) :: b) dcId ↔ dcId ≠ bId ∧ Agree a b dcId := by
  have hne : ∀ m, (bId, m) ∉ a := fun m hm => Int32.lt_irrefl (ha (bId, m) hm)
  constructor
  · rintro (⟨ha', hnone⟩ | ⟨m', n', hm, hn, heq⟩)
    · refine ⟨?_, .unknown ha' fun n' hn => hnone n' (List.mem_cons_of_mem _ hn)⟩
      rintro rfl
      exact hnone n (by simp)
    · have hid : dcId ≠ bId := by
        rintro rfl
        exact hne m' hm
      refine ⟨hid, .equal m' n' hm ((List.mem_cons.mp hn).resolve_left fun hhead => ?_) heq⟩
      exact hid (congrArg Prod.fst hhead)
  · rintro ⟨hid, ⟨ha', hb⟩ | ⟨m', n', hm, hn, heq⟩⟩
    · refine .unknown ha' fun n' hn => ?_
      obtain hhead | hn := List.mem_cons.mp hn
      · exact hid (congrArg Prod.fst hhead)
      · exact hb n' hn
    · exact .equal m' n' hm (List.mem_cons_of_mem _ hn) heq

/-- Entries that both lists begin with are compared. -/
theorem agree_head {a b : List (DcId × List Endpoint)} (ha : ∀ x ∈ a, dcId < x.1)
    (hb : ∀ y ∈ b, dcId < y.1) : Agree ((dcId, m) :: a) ((dcId, n) :: b) dcId ↔ equal m n := by
  have hna : ∀ l, (dcId, l) ∉ a := fun l hl => Int32.lt_irrefl (ha (dcId, l) hl)
  have hnb : ∀ l, (dcId, l) ∉ b := fun l hl => Int32.lt_irrefl (hb (dcId, l) hl)
  constructor
  · rintro (⟨hnone, -⟩ | ⟨m', n', hm, hn, heq⟩)
    · exact absurd List.mem_cons_self (hnone m)
    · obtain ⟨-, rfl⟩ := Prod.mk.inj ((List.mem_cons.mp hm).resolve_right (hna m'))
      obtain ⟨-, rfl⟩ := Prod.mk.inj ((List.mem_cons.mp hn).resolve_right (hnb n'))
      exact heq
  · exact fun heq => .equal m n List.mem_cons_self List.mem_cons_self heq

theorem agree_tail {a b : List (DcId × List Endpoint)} {headId : DcId} (hid : dcId ≠ headId) :
    Agree ((headId, m) :: a) ((headId, n) :: b) dcId ↔ Agree a b dcId := by
  have hmem : ∀ {c : List (DcId × List Endpoint)} {l l' : List Endpoint},
      (dcId, l) ∈ (headId, l') :: c ↔ (dcId, l) ∈ c := by
    intro c l l'
    rw [List.mem_cons, Prod.mk.injEq]
    exact or_iff_right fun heq => hid heq.1
  constructor
  · rintro (⟨hna', hnb'⟩ | ⟨m', n', hm, hn, heq⟩)
    · exact .unknown (fun m' hm => hna' m' (hmem.mpr hm)) fun n' hn => hnb' n' (hmem.mpr hn)
    · exact .equal m' n' (hmem.mp hm) (hmem.mp hn) heq
  · rintro (⟨hna', hnb'⟩ | ⟨m', n', hm, hn, heq⟩)
    · exact .unknown (fun m' hm => hna' m' (hmem.mp hm)) fun n' hn => hnb' n' (hmem.mp hn)
    · exact .equal m' n' (hmem.mpr hm) (hmem.mpr hn) heq

/-- The ids that the loop finds, in their order. -/
structure Finds (a b : List (DcId × List Endpoint)) (ids : List DcId) : Prop where
  sorted : ids.Pairwise (· < ·)
  mem : ∀ dcId, dcId ∈ ids ↔ ¬ Agree a b dcId

/-- An id below all others is found in front of them. -/
theorem Finds.cons {a b a' b' : List (DcId × List Endpoint)} {ids : List DcId} {headId : DcId}
    (h : Finds a b ids) (ha : ∀ x ∈ a, headId < x.1) (hb : ∀ y ∈ b, headId < y.1)
    (hagree : ∀ dcId, Agree a' b' dcId ↔ dcId ≠ headId ∧ Agree a b dcId) :
    Finds a' b' (headId :: ids) := by
  refine ⟨List.pairwise_cons.mpr ⟨fun dcId hmem => ?_, h.sorted⟩, fun dcId => ?_⟩
  · obtain ⟨m, hm⟩ | ⟨n, hn⟩ := known_of_not_agree ((h.mem dcId).mp hmem)
    · exact ha _ hm
    · exact hb _ hn
  · rw [hagree, List.mem_cons, h.mem]
    tauto

theorem sameEnd_cons_left {a b : List (DcId × List Endpoint)} {aId : DcId}
    (hne : aId ≠ Int32.maxValue) : SameEnd ((aId, m) :: a) b ↔ SameEnd a b := by
  simp [SameEnd, hne.symm]

theorem sameEnd_cons_right {a b : List (DcId × List Endpoint)} {bId : DcId}
    (hne : bId ≠ Int32.maxValue) : SameEnd a ((bId, n) :: b) ↔ SameEnd a b := by
  simp [SameEnd, hne.symm]

theorem eq_maxValue {x : DcId} (h : ¬ x < Int32.maxValue) : x = Int32.maxValue :=
  Int32.le_antisymm (Int32.le_maxValue x) (Int32.not_lt.mp h)

theorem ne_maxValue {x y : DcId} (h : x < y) : x ≠ Int32.maxValue := by
  rintro rfl
  exact Int32.not_lt.mpr (Int32.le_maxValue y) h

theorem sameEnd_tails {a b : List (DcId × List Endpoint)} {headId : DcId}
    (ha : ∀ x ∈ a, headId < x.1) (hb : ∀ y ∈ b, headId < y.1) (hend : SameEnd ((headId, m) :: a)
      ((headId, n) :: b)) : SameEnd a b := by
  by_cases hmax : headId = Int32.maxValue
  · have hnone : ∀ {c : List (DcId × List Endpoint)}, (∀ x ∈ c, headId < x.1) →
        ∀ l, (Int32.maxValue, l) ∉ c :=
      fun hc l hl => Int32.lt_irrefl (hmax ▸ hc (Int32.maxValue, l) hl)
    exact ⟨fun ⟨l, hl⟩ => absurd hl (hnone ha l), fun ⟨l, hl⟩ => absurd hl (hnone hb l)⟩
  · exact (sameEnd_cons_left hmax).mp ((sameEnd_cons_right hmax).mp hend)

theorem differenceLoop_finds (a b : List (DcId × List Endpoint)) (ha : Sorted a) (hb : Sorted b)
    (hend : SameEnd a b) : ∃ ids, differenceLoop a b = some ids ∧ Finds a b ids := by
  fun_induction differenceLoop a b with
  | case1 => exact ⟨[], rfl, .nil, fun k => by simpa using .unknown (by simp) (by simp)⟩
  | case2 aId m a hlt ih =>
    obtain ⟨hall, ha⟩ := List.pairwise_cons.mp ha
    obtain ⟨ids, hids, hfinds⟩ := ih ha hb ((sameEnd_cons_left (ne_maxValue hlt)).mp hend)
    rw [hids]
    exact ⟨_, rfl, hfinds.cons hall (by simp) fun k => agree_cons_left (by simp)⟩
  | case3 aId m a hlt =>
    exact absurd (hend.mp ⟨m, by simp [eq_maxValue hlt]⟩) (by simp)
  | case4 bId n b hlt ih =>
    obtain ⟨hall, hb⟩ := List.pairwise_cons.mp hb
    obtain ⟨ids, hids, hfinds⟩ := ih ha hb ((sameEnd_cons_right (ne_maxValue hlt)).mp hend)
    rw [hids]
    exact ⟨_, rfl, hfinds.cons (by simp) hall fun k => agree_cons_right (by simp)⟩
  | case5 bId n b hlt =>
    exact absurd (hend.mpr ⟨n, by simp [eq_maxValue hlt]⟩) (by simp)
  | case6 aId m a bId n b hlt ih =>
    obtain ⟨hall, ha⟩ := List.pairwise_cons.mp ha
    have hb' : ∀ y ∈ (bId, n) :: b, aId < y.1 := by
      intro y hy
      obtain rfl | hy := List.mem_cons.mp hy
      · exact hlt
      · exact Int32.lt_trans hlt ((List.pairwise_cons.mp hb).1 y hy)
    obtain ⟨ids, hids, hfinds⟩ := ih ha hb ((sameEnd_cons_left (ne_maxValue hlt)).mp hend)
    rw [hids]
    exact ⟨_, rfl, hfinds.cons hall hb' fun k => agree_cons_left hb'⟩
  | case7 aId m a bId n b hlt hlt' ih =>
    obtain ⟨hall, hb⟩ := List.pairwise_cons.mp hb
    have ha' : ∀ x ∈ (aId, m) :: a, bId < x.1 := by
      intro x hx
      obtain rfl | hx := List.mem_cons.mp hx
      · exact hlt'
      · exact Int32.lt_trans hlt' ((List.pairwise_cons.mp ha).1 x hx)
    obtain ⟨ids, hids, hfinds⟩ := ih ha hb ((sameEnd_cons_right (ne_maxValue hlt')).mp hend)
    rw [hids]
    exact ⟨_, rfl, hfinds.cons ha' hall fun k => agree_cons_right ha'⟩
  | case8 aId m a bId n b hlt hlt' heq ih =>
    obtain rfl := Int32.le_antisymm (Int32.not_lt.mp hlt') (Int32.not_lt.mp hlt)
    obtain ⟨halla, ha⟩ := List.pairwise_cons.mp ha
    obtain ⟨hallb, hb⟩ := List.pairwise_cons.mp hb
    obtain ⟨ids, hids, hfinds⟩ := ih ha hb (sameEnd_tails halla hallb hend)
    refine ⟨ids, hids, hfinds.sorted, fun k => ?_⟩
    rw [hfinds.mem]
    by_cases hk : k = aId
    · subst hk
      have hunknown : Agree a b k := .unknown (fun l hl => Int32.lt_irrefl (halla (k, l) hl))
        fun l hl => Int32.lt_irrefl (hallb (k, l) hl)
      simp [hunknown, agree_head halla hallb, heq]
    · rw [agree_tail hk]
  | case9 aId m a bId n b hlt hlt' heq ih =>
    obtain rfl := Int32.le_antisymm (Int32.not_lt.mp hlt') (Int32.not_lt.mp hlt)
    obtain ⟨halla, ha⟩ := List.pairwise_cons.mp ha
    obtain ⟨hallb, hb⟩ := List.pairwise_cons.mp hb
    obtain ⟨ids, hids, hfinds⟩ := ih ha hb (sameEnd_tails halla hallb hend)
    rw [hids]
    refine ⟨_, rfl, hfinds.cons halla hallb fun k => ?_⟩
    by_cases hk : k = aId
    · subst hk
      simp [agree_head halla hallb, heq]
    · simp [agree_tail hk, hk]

/-! ## Two maps -/

theorem sorted_toList (data : DcData) : Sorted data.map.toList :=
  Std.TreeMap.ordered_keys_toList.imp Std.compare_eq_lt.mp

theorem mem_toList : (dcId, m) ∈ data.map.toList ↔ data.map[dcId]? = some m :=
  Std.TreeMap.mem_toList_iff_getElem?_eq_some

theorem sameAddresses_nil : SameAddresses m [] ↔ m = [] := by
  cases m with
  | nil => simp [SameAddresses]
  | cons e m =>
    refine ⟨fun h => absurd ((h e.address).mp (by simp)) (by simp), by simp⟩

theorem SameAddresses.symm (h : SameAddresses m n) : SameAddresses n m := fun x => (h x).symm

theorem agree_toList :
    Agree a.map.toList b.map.toList dcId ↔
      SameAddresses (a.endpoints dcId) (b.endpoints dcId) := by
  constructor
  · rintro (⟨ha, hb⟩ | ⟨m, n, ha, hb, heq⟩)
    · have hnone : ∀ {data : DcData}, (∀ m, (dcId, m) ∉ data.map.toList) →
          data.endpoints dcId = [] := by
        intro data h
        rw [endpoints_eq_nil, Option.eq_none_iff_forall_not_mem]
        exact fun m hm => h m (mem_toList.mpr hm)
      rw [hnone ha, hnone hb]
      exact fun _ => Iff.rfl
    · rw [mem_toList] at ha hb
      rw [endpoints_of_some ha, endpoints_of_some hb]
      exact (equal_iff (a.wellFormed _ _ ha).nodup (b.wellFormed _ _ hb).nodup).mp heq
  · intro hsame
    cases ha : a.map[dcId]? with
    | none =>
      rw [endpoints_of_none ha] at hsame
      have hb := endpoints_eq_nil.mp (sameAddresses_nil.mp hsame.symm)
      exact .unknown (fun m hm => by simp [mem_toList.mp hm] at ha)
        fun n hn => by simp [mem_toList.mp hn] at hb
    | some m =>
      cases hb : b.map[dcId]? with
      | none =>
        rw [endpoints_of_none hb] at hsame
        exact absurd (endpoints_eq_nil.mp (sameAddresses_nil.mp hsame)) (by simp [ha])
      | some n =>
        rw [endpoints_of_some ha, endpoints_of_some hb] at hsame
        exact .equal m n (mem_toList.mpr ha) (mem_toList.mpr hb)
          ((equal_iff (a.wellFormed _ _ ha).nodup (b.wellFormed _ _ hb).nodup).mpr hsame)

theorem countOptionsDifference_finds (a b : DcData)
    (hend : a.endpoints Int32.maxValue = [] ↔ b.endpoints Int32.maxValue = []) :
    ∃ ids, countOptionsDifference a b = some ids ∧ ids.Pairwise (· < ·) ∧
      ∀ dcId, dcId ∈ ids ↔ ¬ SameAddresses (a.endpoints dcId) (b.endpoints dcId) := by
  have hknown : ∀ data : DcData, (∃ m, (Int32.maxValue, m) ∈ data.map.toList) ↔
      ¬ data.endpoints Int32.maxValue = [] := by
    intro data
    rw [endpoints_eq_nil, ← ne_eq, Option.ne_none_iff_exists']
    exact exists_congr fun m => mem_toList
  obtain ⟨ids, hids, hfinds⟩ := differenceLoop_finds _ _ a.sorted_toList b.sorted_toList
    ((hknown a).trans ((not_congr hend).trans (hknown b).symm))
  exact ⟨ids, hids, hfinds.sorted, fun dcId => (hfinds.mem dcId).trans (not_congr agree_toList)⟩

end DcData

/-! ## The list from the server -/

namespace DcOptions

variable {Key : Type}

/-- What a list says of a data center: the first option for each address. -/
def endpointsOf (options : List DcOption) (dcId : DcId) : List Endpoint :=
  ((options.map DcOption.endpoint).filter (·.id = dcId)).eraseDupsBy Endpoint.sameAddress

theorem endpointsOf_eq_nil {options : List DcOption} {dcId : DcId} :
    endpointsOf options dcId = [] ↔ ∀ option ∈ options, option.id ≠ dcId := by
  rw [endpointsOf, ← DcData.applyAll_empty_endpoints, DcData.endpoints_eq_nil, ← not_iff_not,
    ← ne_eq, DcData.mem_map_applyAll_empty]
  simp [DcOption.endpoint]

/-- What the list of the server is compared with, and what comes of it. -/
theorem setFromList_eq {s : DcOptions Key} {options : List DcOption}
    (h : ¬ (s.immutable ∨ options = []))
    (hend : s.data.endpoints Int32.maxValue = [] ↔ endpointsOf options Int32.maxValue = []) :
    ∃ ids, ids.Pairwise (· < ·) ∧
      (∀ dcId, dcId ∈ ids ↔
        ¬ DcData.SameAddresses (s.data.endpoints dcId) (endpointsOf options dcId)) ∧
      s.setFromList options = some (if ids ≠ [] then
        (ids, { s with data := DcData.empty.applyAll (options.map DcOption.endpoint) })
        else ([], s)) := by
  have hdata := DcData.applyAll_empty_endpoints (options.map DcOption.endpoint)
  obtain ⟨ids, hids, hsorted, hmem⟩ := DcData.countOptionsDifference_finds s.data
    (DcData.empty.applyAll (options.map DcOption.endpoint)) (by rwa [hdata])
  simp only [hdata] at hmem
  refine ⟨ids, hsorted, hmem, ?_⟩
  rw [setFromList, processFromList, if_neg fun h' => h h'.symm, if_pos rfl]
  dsimp only
  rw [hids, Option.map_some]

/-- A list with the same addresses is dropped, with all else that it says. -/
theorem setFromList_sameAddresses {s : DcOptions Key} {options : List DcOption}
    (hsame : ∀ dcId, DcData.SameAddresses (s.data.endpoints dcId) (endpointsOf options dcId)) :
    s.setFromList options = some ([], s) := by
  by_cases h : s.immutable ∨ options = []
  · rw [setFromList, processFromList, if_pos h.symm]
  · have hend := hsame Int32.maxValue
    obtain ⟨ids, -, hmem, heq⟩ := setFromList_eq h
      ⟨fun hnil => DcData.sameAddresses_nil.mp (hnil ▸ hend).symm,
        fun hnil => DcData.sameAddresses_nil.mp (hnil ▸ hend)⟩
    have hnil : ids = [] := List.eq_nil_iff_forall_not_mem.mpr
      fun dcId hid => (hmem dcId).mp hid (hsame dcId)
    rw [heq, if_neg (not_not.mpr hnil)]

/-- The stored endpoints are those of the list, and the ids are those for which they differ. -/
def ReplacesList (s : DcOptions Key) (options : List DcOption) : Prop :=
  ∃ ids t, s.setFromList options = some (ids, t) ∧
    (∀ dcId, t.data.endpoints dcId = endpointsOf options dcId) ∧
    ∀ dcId, dcId ∈ ids ↔ s.data.endpoints dcId ≠ t.data.endpoints dcId

/-- One address of the second data center, with a secret or without. -/
def oneOption (secret : List UInt8) : DcOption where
  flags := if secret = [] then 0 else DcFlag.f_secret
  id := 2
  ipAddress := [49]
  port := 443
  secret := secret

def oneStored : DcOptions Unit :=
  { data := DcData.empty.applyAll [(oneOption []).endpoint] }

end DcOptions

end Bettergram.Mtproto
