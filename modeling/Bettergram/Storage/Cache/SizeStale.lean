import Bettergram.Storage.Cache.Statistics

/-! # Pruning by size

One pass over the map keeps the oldest entries that make up for what is too much. A new entry
drops the latest of them while it makes up for these, so no entry that is dropped or passed by
is older than one that is kept.
-/

namespace Bettergram.Storage.Cache
open Foundation

namespace Memory

def sizes (buckets : List Bucket) : ℤ := (buckets.map fun b => (b.2.size : ℤ)).sum

@[simp] theorem sizes_nil : sizes [] = 0 := rfl

@[simp] theorem sizes_cons (b : Bucket) (buckets : List Bucket) :
    sizes (b :: buckets) = b.2.size + sizes buckets := by
  rw [sizes, List.map_cons, List.sum_cons, sizes]

@[simp] theorem sizes_append (l l' : List Bucket) : sizes (l ++ l') = sizes l + sizes l' := by
  rw [sizes, List.map_append, List.sum_append, sizes, sizes]


theorem sizes_eq_cast (buckets : List Bucket) :
    sizes buckets = ((buckets.map fun b => b.2.size).sum : ℕ) := by
  induction buckets with
  | nil => rfl
  | cons b buckets ih => rw [sizes_cons, ih, List.map_cons, List.sum_cons, Int.natCast_add]

theorem sizes_nonneg (buckets : List Bucket) : 0 ≤ sizes buckets := by
  rw [sizes_eq_cast]
  exact Int.natCast_nonneg _

theorem sizes_perm {l l' : List Bucket} (h : l.Perm l') : sizes l = sizes l' :=
  (h.map _).sum_eq

/-- The signed time is the time, up to the middle of its range. -/
theorem bucketTime_lt_iff {b c : Bucket} (hb : b.2.useTime.toNat < 2 ^ 63) (hc : c.2.useTime.toNat < 2 ^ 63) :
    bucketTime b < bucketTime c ↔ b.2.useTime < c.2.useTime := by
  have hsigned : ∀ time : UInt64, time.toNat < 2 ^ 63 → time.toInt64.toInt = time.toNat := by
    intro time htime
    change time.toInt64.toBitVec.toInt = _
    rw [UInt64.toBitVec_toInt64, BitVec.toInt_eq_toNat_of_lt]
    · rfl
    · change 2 * time.toNat < 2 ^ 64
      omega
  rw [bucketTime, bucketTime, hsigned _ hb, hsigned _ hc, UInt64.lt_iff_toNat_lt]
  exact Int.ofNat_lt

/-- The first of two is later, or as late and earlier in the order of the map. -/
def Before (order : List Bucket) (a b : Bucket) : Prop :=
  b.2.useTime < a.2.useTime ∨ b.2.useTime = a.2.useTime ∧ [a, b].Sublist order

theorem Before.le {order : List Bucket} {a b : Bucket} (h : Before order a b) :
    b.2.useTime ≤ a.2.useTime := h.elim UInt64.le_of_lt fun h => UInt64.le_of_eq h.1

theorem Before.mono {order order' : List Bucket} {a b : Bucket} (hsub : order.Sublist order')
    (h : Before order a b) : Before order' a b := h.imp_right fun h => ⟨h.1, h.2.trans hsub⟩

variable {removeSize total : ℤ} {done oldest dropped : List Bucket} {b : Bucket}

theorem mem_emplaceOldest {c : Bucket} : c ∈ emplaceOldest b oldest ↔ c = b ∨ c ∈ oldest := by
  induction oldest with
  | nil => simp [emplaceOldest]
  | cons d rest ih =>
    rw [emplaceOldest]
    split_ifs
    · exact List.mem_cons
    · rw [List.mem_cons, ih, List.mem_cons, or_left_comm]

theorem emplaceOldest_perm (b : Bucket) (oldest : List Bucket) :
    (emplaceOldest b oldest).Perm (b :: oldest) := by
  induction oldest with
  | nil => exact .refl _
  | cons c rest ih =>
    rw [emplaceOldest]
    split_ifs
    · exact .refl _
    · exact (ih.cons c).trans (.swap b c rest)

/-- The next entry goes behind those that are as late. -/
theorem emplaceOldest_sorted (hsorted : oldest.Pairwise (Before done))
    (htimes : ∀ c ∈ oldest, c.2.useTime.toNat < 2 ^ 63) (hb : b.2.useTime.toNat < 2 ^ 63)
    (hdone : ∀ c ∈ oldest, c ∈ done) :
    (emplaceOldest b oldest).Pairwise (Before (done ++ [b])) := by
  have hgrow : done.Sublist (done ++ [b]) := List.sublist_append_left _ _
  induction oldest with
  | nil => exact List.pairwise_singleton _ _
  | cons c rest ih =>
    obtain ⟨hfirst, hrest⟩ := List.pairwise_cons.mp hsorted
    have hlt := bucketTime_lt_iff (htimes c List.mem_cons_self) hb
    rw [emplaceOldest]
    split_ifs with hlate
    · rw [List.pairwise_cons]
      refine ⟨fun d hd => .inl ?_, hsorted.imp (Before.mono hgrow)⟩
      rcases List.mem_cons.mp hd with rfl | hd
      · exact hlt.mp hlate
      · exact UInt64.lt_of_le_of_lt (hfirst d hd).le (hlt.mp hlate)
    · rw [List.pairwise_cons]
      refine ⟨fun d hd => ?_, ih hrest (fun d hd => htimes d (List.mem_cons_of_mem _ hd))
        fun d hd => hdone d (List.mem_cons_of_mem _ hd)⟩
      rcases mem_emplaceOldest.mp hd with rfl | hd
      · have hle : d.2.useTime ≤ c.2.useTime := UInt64.not_lt.mp (mt hlt.mpr hlate)
        rcases UInt64.lt_or_eq_of_le hle with hlt' | heq
        · exact .inl hlt'
        · exact .inr ⟨heq, (List.singleton_sublist.mpr (hdone c List.mem_cons_self)).append
            (List.Sublist.refl [d])⟩
      · exact (hfirst d hd).mono hgrow

/-- What the loop drops is no older than the new entry, which makes up for it. -/
theorem removeFirst_spec (removeSize : ℤ) (adding : Entry) (oldest : List Bucket) (total : ℤ) :
    ∃ out kept, oldest = out ++ kept ∧
      removeFirst removeSize adding oldest total = (kept, total - sizes out) ∧
      (∀ d ∈ out, adding.useTime ≤ d.2.useTime) ∧
      (out ≠ [] → removeSize ≤ total - sizes out + adding.size) ∧
      ∀ first, kept.head? = some first → ¬(adding.useTime ≤ first.2.useTime ∧
        first.2.size ≤ total - sizes out + adding.size - removeSize) := by
  induction oldest generalizing total with
  | nil => exact ⟨[], [], rfl, by simp [removeFirst], by simp, by simp, by simp⟩
  | cons first rest ih =>
    rw [removeFirst]
    split_ifs with hremove
    · obtain ⟨out, kept, rfl, hresult, htimes, hmakes, hstop⟩ := ih (total - first.2.size)
      have hsizes : total - sizes (first :: out) = total - first.2.size - sizes out := by
        rw [sizes_cons]
        omega
      rw [← hsizes] at hresult hmakes hstop
      refine ⟨first :: out, kept, rfl, hresult, ?_, fun _ => ?_, hstop⟩
      · intro d hd
        rcases List.mem_cons.mp hd with rfl | hd
        · exact hremove.1
        · exact htimes d hd
      · by_cases hout : out = []
        · rw [hout, sizes_cons, sizes_nil]
          omega
        · exact hmakes hout
    · refine ⟨[], first :: rest, rfl, by simp, by simp, by simp, fun next hnext => ?_⟩
      obtain rfl := Option.some.inj hnext
      rwa [sizes_nil, Int.sub_zero]


/-- What is kept of the entries passed so far: no older one was dropped, and nothing was
before there was enough. Without the first the rest is not enough. -/
structure Oldest (removeSize : ℤ) (done oldest : List Bucket) (total : ℤ)
    (dropped : List Bucket) : Prop where
  perm : (oldest ++ dropped).Perm done
  sum : total = sizes oldest
  sorted : oldest.Pairwise (Before done)
  minimal : ∀ first, oldest.head? = some first → total - first.2.size < removeSize
  older : ∀ d ∈ dropped, removeSize ≤ total ∧ ∀ c ∈ oldest, c.2.useTime ≤ d.2.useTime

theorem Oldest.mem (h : Oldest removeSize done oldest total dropped) {c : Bucket}
    (hc : c ∈ oldest) : c ∈ done := h.perm.subset (List.mem_append_left _ hc)

/-- The first one kept is the latest. -/
theorem Oldest.le_head (h : Oldest removeSize done oldest total dropped) {first c : Bucket}
    (hfirst : oldest.head? = some first) (hc : c ∈ oldest) : c.2.useTime ≤ first.2.useTime := by
  obtain ⟨rest, rfl⟩ := List.head?_eq_some_iff.mp hfirst
  rcases List.mem_cons.mp hc with rfl | hc
  · exact UInt64.le_refl _
  · exact ((List.pairwise_cons.mp h.sorted).1 c hc).le

/-- Where the new entry goes among those that are kept. -/
theorem head?_emplaceOldest {first : Bucket} (hfirst : (emplaceOldest b oldest).head? = some first) :
    (first = b ∧ ∀ c, oldest.head? = some c → bucketTime c < bucketTime b) ∨
      (oldest.head? = some first ∧ ¬bucketTime first < bucketTime b) := by
  cases oldest with
  | nil =>
    obtain rfl := Option.some.inj hfirst
    exact .inl ⟨rfl, fun c hc => absurd hc (by simp)⟩
  | cons c rest =>
    rw [emplaceOldest] at hfirst
    split_ifs at hfirst with hlate
    · obtain rfl := Option.some.inj hfirst
      exact .inl ⟨rfl, fun d hd => by rwa [← Option.some.inj hd]⟩
    · obtain rfl := Option.some.inj hfirst
      exact .inr ⟨rfl, hlate⟩

theorem Oldest.addOldest (h : Oldest removeSize done oldest total dropped)
    (htimes : ∀ c ∈ done, c.2.useTime.toNat < 2 ^ 63) (hb : b.2.useTime.toNat < 2 ^ 63) :
    ∃ dropped', Oldest removeSize (done ++ [b]) (addOldest removeSize b (oldest, total)).1
      (addOldest removeSize b (oldest, total)).2 dropped' := by
  have hgrow : done.Sublist (done ++ [b]) := List.sublist_append_left _ _
  have htotal := h.sum
  unfold Memory.addOldest
  simp only
  split_ifs with hadd
  · obtain ⟨out, kept, hsplit, hresult, hout, hmakes, hstop⟩ :=
      removeFirst_spec removeSize b.2 oldest total
    rw [hresult]
    simp only
    have hsizes : total - sizes out = sizes kept := by
      rw [htotal, hsplit, sizes_append]
      omega
    have hsorted := h.sorted
    rw [hsplit, List.pairwise_append] at hsorted
    obtain ⟨-, hkept, hacross⟩ := hsorted
    have hmem : ∀ c ∈ kept, c ∈ oldest := fun c hc => by
      rw [hsplit]
      exact List.mem_append_right _ hc
    have henough : ∀ d ∈ out ++ dropped, removeSize ≤ total - sizes out + b.2.size := by
      intro d hd
      by_cases hnil : out = []
      · rw [hnil, List.nil_append] at hd
        have := (h.older d hd).1
        rw [hnil, sizes_nil]
        omega
      · exact hmakes hnil
    have hearlier : ∀ d ∈ dropped, b.2.useTime ≤ d.2.useTime := by
      intro d hd
      obtain ⟨hmade, holder⟩ := h.older d hd
      obtain ⟨first, hfirst, hlt⟩ := hadd.resolve_left (not_lt.mpr hmade)
      have hfirst := Option.mem_def.mp hfirst
      exact UInt64.le_trans (UInt64.le_of_lt hlt) (holder first (List.mem_of_mem_head? hfirst))
    refine ⟨out ++ dropped, ?_, ?_, ?_, ?_, ?_⟩
    · have hperm := h.perm
      rw [hsplit, List.append_assoc] at hperm
      calc List.Perm (emplaceOldest b kept ++ (out ++ dropped)) (b :: (kept ++ (out ++ dropped))) :=
            (emplaceOldest_perm b kept).append_right _
        List.Perm _ (b :: (out ++ (kept ++ dropped))) := by
            rw [← List.append_assoc, ← List.append_assoc]
            exact (List.perm_append_comm.append_right _).cons b
        List.Perm _ (b :: done) := hperm.cons b
        List.Perm _ (done ++ [b]) := (List.perm_append_singleton b done).symm
    · rw [hsizes, sizes_perm (emplaceOldest_perm b kept), sizes_cons, Int.add_comm]
    · exact emplaceOldest_sorted hkept (fun c hc => htimes c (h.mem (hmem c hc))) hb
        fun c hc => h.mem (hmem c hc)
    · intro first hfirst
      rcases head?_emplaceOldest hfirst with ⟨rfl, hlate⟩ | ⟨hhead, hearly⟩
      · have hless : total - sizes out < removeSize := by
          cases out with
          | nil =>
            rw [sizes_nil, Int.sub_zero]
            refine hadd.elim id fun ⟨latest, hlatest, hlt⟩ => ?_
            rw [hsplit, List.nil_append] at hlatest
            have hkeptMem := hmem latest (List.mem_of_mem_head? hlatest)
            have := (bucketTime_lt_iff (htimes latest (h.mem hkeptMem)) hb).mp
              (hlate latest hlatest)
            exact absurd hlt (UInt64.not_lt.mpr (UInt64.le_of_lt this))
          | cons latest rest =>
            have hminimal := h.minimal latest (by rw [hsplit]; rfl)
            have hrest := sizes_nonneg rest
            rw [sizes_cons]
            omega
        omega
      · have hfirstMem := List.mem_of_mem_head? hhead
        have hle : b.2.useTime ≤ first.2.useTime := UInt64.not_lt.mp
          (mt (bucketTime_lt_iff (htimes first (h.mem (hmem first hfirstMem))) hb).mpr hearly)
        have := hstop first hhead
        rw [not_and, not_le] at this
        have := this hle
        omega
    · intro d hd
      refine ⟨henough d hd, fun c hc => ?_⟩
      rw [List.mem_append] at hd
      rcases mem_emplaceOldest.mp hc with rfl | hc
      · exact hd.elim (hout d) (hearlier d)
      · exact hd.elim (fun hd => (hacross d hd c hc).le) fun hd => (h.older d hd).2 c (hmem c hc)
  · rw [not_or, not_lt] at hadd
    obtain ⟨hmade, hlate⟩ := hadd
    refine ⟨dropped ++ [b], ?_, htotal, h.sorted.imp (Before.mono hgrow), h.minimal, ?_⟩
    · rw [← List.append_assoc]
      exact h.perm.append_right _
    · intro d hd
      rcases List.mem_append.mp hd with hd | hd
      · exact h.older d hd
      · obtain rfl := List.mem_singleton.mp hd
        refine ⟨hmade, fun c hc => ?_⟩
        obtain ⟨first, rest, rfl⟩ := List.exists_cons_of_ne_nil (List.ne_nil_of_mem hc)
        have hfirst : d.2.useTime ≥ first.2.useTime := UInt64.not_lt.mp fun hlt =>
          hlate ⟨first, rfl, hlt⟩
        exact UInt64.le_trans (h.le_head rfl hc) hfirst

theorem oldest_foldl (removeSize : ℤ) (buckets : List Bucket)
    (htimes : ∀ c ∈ buckets, c.2.useTime.toNat < 2 ^ 63) :
    let kept := buckets.foldl (fun oldest b => Memory.addOldest removeSize b oldest) ([], 0)
    ∃ dropped, Oldest removeSize buckets kept.1 kept.2 dropped := by
  induction buckets using List.reverseRecOn with
  | nil => exact ⟨[], .refl _, rfl, .nil, by simp, by simp⟩
  | append_singleton buckets b ih =>
    obtain ⟨dropped, h⟩ := ih fun c hc => htimes c (List.mem_append_left _ hc)
    rw [List.foldl_append]
    exact h.addOldest (fun c hc => htimes c (List.mem_append_left _ hc)) (htimes b (by simp))


theorem mem_foldl_insertKey {keys : List Key} {buckets : List Bucket} {key : Key} :
    key ∈ buckets.foldl (fun keys b => insertKey b.1 keys) keys ↔
      key ∈ keys ∨ ∃ b ∈ buckets, b.1 = key := by
  induction buckets generalizing keys with
  | nil => simp
  | cons b buckets ih =>
    rw [List.foldl_cons, ih, mem_insertKey, List.exists_mem_cons_iff, eq_comm, or_assoc,
      or_left_comm]

variable {settings : Settings} {m : Memory} {stale : List Key × ℤ}

/-- Entries of the map split by their keys. -/
theorem sizes_filter_add (buckets : List Bucket) (p : Bucket → Bool) :
    sizes (buckets.filter p) + sizes (buckets.filter fun b => !p b) = sizes buckets := by
  rw [← sizes_append]
  exact sizes_perm (List.filter_append_perm p buckets)

/-- The entries whose keys are not in a set, when the keys of the rest are. -/
theorem filter_keys_perm {fresh kept rest : List Bucket} (hnodup : (fresh.map Sigma.fst).Nodup)
    (hperm : (kept ++ rest).Perm fresh) {keys : List Key}
    (hkeys : ∀ b ∈ fresh, b.1 ∈ keys ↔ b.1 ∈ kept.map Sigma.fst) :
    (fresh.filter fun b => b.1 ∈ keys).Perm kept ∧ (fresh.filter fun b => b.1 ∉ keys).Perm rest := by
  have hnodup' : ((kept ++ rest).map Sigma.fst).Nodup := (hperm.map _).nodup_iff.mpr hnodup
  rw [List.map_append, List.nodup_append] at hnodup'
  obtain ⟨-, -, hapart⟩ := hnodup'
  have hkept : ∀ b ∈ kept, b.1 ∈ keys := fun b hb =>
    (hkeys b (hperm.subset (List.mem_append_left _ hb))).mpr (List.mem_map_of_mem hb)
  have hrest : ∀ b ∈ rest, b.1 ∉ keys := fun b hb hin =>
    hapart b.1 ((hkeys b (hperm.subset (List.mem_append_right _ hb))).mp hin) b.1
      (List.mem_map_of_mem hb) rfl
  constructor
  · refine (hperm.symm.filter _).trans (.of_eq ?_)
    rw [List.filter_append, List.filter_eq_self.mpr fun b hb => decide_eq_true (hkept b hb),
      List.filter_eq_nil_iff.mpr fun b hb => by simpa using hrest b hb, List.append_nil]
  · refine (hperm.symm.filter _).trans (.of_eq ?_)
    rw [List.filter_append, List.filter_eq_nil_iff.mpr fun b hb => by simpa using hkept b hb,
      List.filter_eq_self.mpr fun b hb => decide_eq_true (hrest b hb), List.nil_append]

theorem collectEntries_fst (before : UInt64) (buckets : List Bucket) (stale : List Key × ℤ)
    (m : Memory) :
    (∀ key, key ∈ (collectEntries before buckets stale m).1.1 ↔
      key ∈ stale.1 ∨ ∃ b ∈ buckets, b.2.useTime ≤ before ∧ b.1 = key) ∧
    (collectEntries before buckets stale m).1.2 =
      stale.2 + sizes (buckets.filter fun b => b.2.useTime ≤ before) := by
  induction buckets generalizing stale m with
  | nil => simp [collectEntries]
  | cons b rest ih =>
    obtain ⟨hkeys, hsum⟩ := ih (m.collectEntry before b.1 b.2 stale).1
      (m.collectEntry before b.1 b.2 stale).2
    have hstep : collectEntries before (b :: rest) stale m =
        collectEntries before rest (m.collectEntry before b.1 b.2 stale).1
          (m.collectEntry before b.1 b.2 stale).2 := rfl
    rw [hstep, hsum, List.filter_cons]
    by_cases hold : b.2.useTime ≤ before
    · have hentry : m.collectEntry before b.1 b.2 stale =
          ((insertKey b.1 stale.1, stale.2 + b.2.size), m) := if_pos hold
      rw [hentry] at hkeys ⊢
      rw [if_pos (decide_eq_true hold), sizes_cons]
      refine ⟨fun key => ?_, by simp only; omega⟩
      rw [hkeys, mem_insertKey, List.exists_mem_cons_iff, eq_comm, or_assoc, or_left_comm]
      simp only [hold, true_and]
    · have hentry : (m.collectEntry before b.1 b.2 stale).1 = stale := by
        unfold collectEntry
        rw [if_neg hold]
        split_ifs <;> rfl
      rw [hentry] at hkeys ⊢
      rw [if_neg (by simpa using hold)]
      refine ⟨fun key => ?_, rfl⟩
      rw [hkeys, List.exists_mem_cons_iff]
      simp only [hold, false_and, false_or]

/-- Pruning by time tells the size of what it has collected. -/
theorem collectTimeStale_sum (settings : Settings) (clock : Int32) (m : Memory) :
    (m.collectTimeStale settings clock).1.2 =
      sizes (m.map.entries.filter fun b => b.1 ∈ (m.collectTimeStale settings clock).1.1) := by
  unfold collectTimeStale
  simp only
  split_ifs
  · simp
  · simp
  · obtain ⟨hkeys, hsum⟩ := collectEntries_fst (m.pruneBeforeTime settings clock) m.map.entries
      ([], 0) { m with minimalEntryTime := 0, entriesWithMinimalTimeCount := 0 }
    rw [hsum, Int.zero_add]
    congr 1
    refine List.filter_congr fun b hb => decide_eq_decide.mpr ?_
    rw [hkeys, or_iff_right List.not_mem_nil]
    refine ⟨fun hold => ⟨b, hb, hold, rfl⟩, fun ⟨c, hc, hold, hkey⟩ => ?_⟩
    rwa [← m.map.nodupKeys.eq_of_fst_eq hc hb hkey]

/-- In every reachable state `prune` comes to the sizes with exact totals. -/
theorem prune_totals_exact {xxh32 : List UInt8 → UInt32} {s : System}
    (h : Reachable settings xxh32 (fun _ _ => True) (fun _ _ => True) s) (clock : Int32) :
    let collected := s.database.memory.collectTimeStale settings clock
    collected.2.totalSize = sizes collected.2.map.entries ∧
      collected.1.2 = sizes (collected.2.map.entries.filter fun b => b.1 ∈ collected.1.1) := by
  intro collected
  obtain ⟨hmap, -, htotal, -⟩ := collectTimeStale_frame settings clock s.database.memory
  constructor
  · rw [htotal, hmap, h.exact.total, mapSum_sizeWorth, sizes_eq_cast]
  · rw [hmap]
    exact collectTimeStale_sum settings clock s.database.memory

/-- What pruning by size adds, when there is a limit: as much as is needed of the oldest
entries. Of entries of one time those that the map has later are preferred. -/
theorem collectSizeStale_oldest (htotal : m.totalSize = sizes m.map.entries)
    (hstale : stale.2 = sizes (m.map.entries.filter fun b => b.1 ∈ stale.1))
    (htimes : ∀ b ∈ m.map.entries, b.2.useTime.toNat < 2 ^ 63) :
    let fresh := m.map.entries.filter fun b => b.1 ∉ stale.1
    let result := m.collectSizeStale settings stale
    let added := fresh.filter fun b => b.1 ∈ result.1
    let left := fresh.filter fun b => b.1 ∉ result.1
    (∀ key, key ∈ result.1 ↔ key ∈ stale.1 ∨ ∃ b ∈ added, b.1 = key) ∧
      result.2 = stale.2 + sizes added ∧
      (settings.totalSizeLimit = 0 → added = []) ∧
      (0 < settings.totalSizeLimit → sizes left ≤ settings.totalSizeLimit ∧
        (∀ a ∈ added, ∀ b ∈ left, a.2.useTime ≤ b.2.useTime) ∧
        (added ≠ [] → ∃ newest ∈ added,
          (∀ a ∈ added, a = newest ∨ Before m.map.entries newest a) ∧
          settings.totalSizeLimit < sizes left + newest.2.size) ∧
        (sizes fresh ≤ settings.totalSizeLimit → added = [])) := by
  intro fresh result added left
  have hsum : sizes (m.map.entries.filter fun b => b.1 ∈ stale.1) + sizes fresh =
      sizes m.map.entries := by
    have hsplit := sizes_filter_add m.map.entries fun b => decide (b.1 ∈ stale.1)
    simpa only [← decide_not] using hsplit
  have hnodup : (fresh.map Sigma.fst).Nodup :=
    (List.filter_sublist.map _).nodup m.map.nodupKeys
  by_cases hnone : (if 0 < settings.totalSizeLimit then
      m.totalSize - stale.2 - settings.totalSizeLimit else 0) ≤ 0
  · have hresult : result = stale := if_pos hnone
    have hadded : added = [] := List.filter_eq_nil_iff.mpr fun b hb => by
      have hout := (List.mem_filter.mp hb).2
      rw [hresult]
      simpa using hout
    have hleft : left = fresh := List.filter_eq_self.mpr fun b hb => by
      have hout := (List.mem_filter.mp hb).2
      rw [hresult]
      exact hout
    rw [hadded, hleft, hresult]
    refine ⟨fun key => by simp, by simp, fun _ => rfl, fun hlimit => ⟨?_, by simp, by simp, by simp⟩⟩
    rw [if_pos hlimit] at hnone
    omega
  · have hlimit : 0 < settings.totalSizeLimit := by
      by_contra hno
      exact hnone (by rw [if_neg hno])
    obtain ⟨removeSize, hremove⟩ : ∃ removeSize, removeSize =
      m.totalSize - stale.2 - settings.totalSizeLimit := ⟨_, rfl⟩
    have hresult : result = _ := if_neg hnone
    simp only [if_pos hlimit, ← hremove] at hresult
    obtain ⟨dropped, h⟩ := oldest_foldl removeSize fresh fun c hc =>
      htimes c (List.mem_filter.mp hc).1
    change result = (((fresh.foldl (fun oldest b => Memory.addOldest removeSize b oldest)
      ([], 0)).1).foldl (fun keys b => insertKey b.1 keys) stale.1, stale.2 +
        (fresh.foldl (fun oldest b => Memory.addOldest removeSize b oldest) ([], 0)).2) at hresult
    generalize fresh.foldl (fun oldest b => Memory.addOldest removeSize b oldest) ([], 0) =
      kept at h hresult
    obtain ⟨oldest, total⟩ := kept
    simp only at h hresult
    have hkeys : ∀ key, key ∈ result.1 ↔ key ∈ stale.1 ∨ ∃ b ∈ oldest, b.1 = key := fun key => by
      rw [hresult]
      exact mem_foldl_insertKey
    have hfreshKeys : ∀ b ∈ fresh, b.1 ∈ result.1 ↔ b.1 ∈ oldest.map Sigma.fst := fun b hb => by
      have hout := of_decide_eq_true (List.mem_filter.mp hb).2
      rw [hkeys, List.mem_map]
      exact or_iff_right hout
    obtain ⟨haddedPerm, hleftPerm⟩ := filter_keys_perm hnodup h.perm hfreshKeys
    change added.Perm oldest at haddedPerm
    change left.Perm dropped at hleftPerm
    have hsizesAdded := sizes_perm haddedPerm
    have hsizesLeft := sizes_perm hleftPerm
    have hsizesFresh := sizes_perm h.perm
    rw [sizes_append] at hsizesFresh
    have htotalKept := h.sum
    refine ⟨fun key => ?_, ?_, fun hzero => absurd hlimit (by omega), fun _ => ⟨?_, ?_, ?_, ?_⟩⟩
    · rw [hkeys]
      refine or_congr_right (exists_congr fun b => and_congr_left fun _ => ?_)
      exact haddedPerm.mem_iff.symm
    · rw [hresult, hsizesAdded, ← htotalKept]
    · cases dropped with
      | nil =>
        rw [hsizesLeft, sizes_nil]
        omega
      | cons d rest =>
        have hmade := (h.older d List.mem_cons_self).1
        omega
    · intro a ha b hb
      exact (h.older b (hleftPerm.subset hb)).2 a (haddedPerm.subset ha)
    · intro hsome
      cases oldest with
      | nil => exact absurd haddedPerm.eq_nil hsome
      | cons newest rest =>
        have hminimal := h.minimal newest rfl
        have hsorted := (List.pairwise_cons.mp h.sorted).1
        refine ⟨newest, haddedPerm.mem_iff.mpr List.mem_cons_self, fun a ha => ?_, by omega⟩
        rcases List.mem_cons.mp (haddedPerm.subset ha) with rfl | ha
        · exact .inl rfl
        · exact .inr ((hsorted a ha).mono List.filter_sublist)
    · intro hfits
      exfalso
      rw [if_pos hlimit] at hnone
      omega


/-- The settings with entries of at most `maxDataSize` bytes and a limit on all of them. -/
def smallSettings (maxDataSize : ℕ) (totalSizeLimit : ℤ) (hpos : 0 < maxDataSize)
    (hlt : maxDataSize < kDataSizeLimit)
    (hok : totalSizeLimit = 0 ∨ (maxDataSize : ℤ) < totalSizeLimit) : Settings :=
  { Settings.initial with
    maxDataSize := maxDataSize
    totalSizeLimit := totalSizeLimit
    maxDataSize_pos := hpos
    maxDataSize_lt := hlt
    totalSizeLimit_ok := hok }

/-- Two entries of ten bytes, of which the limit allows one. -/
theorem collectSizeStale_oldest_two :
    let settings := smallSettings 10 11 (by decide) (by decide) (by decide)
    let m : Memory := { map := [⟨⟨0, 1⟩, { useTime := 5, size := 10 }⟩,
      ⟨⟨0, 2⟩, { useTime := 3, size := 10 }⟩].toAList, totalSize := 20 }
    let stale : List Key × ℤ := ([], 0)
    let fresh := m.map.entries.filter fun b => b.1 ∉ stale.1
    let result := m.collectSizeStale settings stale
    let added := fresh.filter fun b => b.1 ∈ result.1
    let left := fresh.filter fun b => b.1 ∉ result.1
    (∀ key, key ∈ result.1 ↔ key ∈ stale.1 ∨ ∃ b ∈ added, b.1 = key) ∧
      result.2 = stale.2 + sizes added ∧
      (settings.totalSizeLimit = 0 → added = []) ∧
      (0 < settings.totalSizeLimit → sizes left ≤ settings.totalSizeLimit ∧
        (∀ a ∈ added, ∀ b ∈ left, a.2.useTime ≤ b.2.useTime) ∧
        (added ≠ [] → ∃ newest ∈ added,
          (∀ a ∈ added, a = newest ∨ Before m.map.entries newest a) ∧
          settings.totalSizeLimit < sizes left + newest.2.size) ∧
        (sizes fresh ≤ settings.totalSizeLimit → added = [])) :=
  collectSizeStale_oldest (by decide) (by decide) (by decide)

/-- Three of four entries are added: 50, 1 and 50 bytes of one time, with a later one of 50
left. Without the one of a byte, of which none is newer, the limit of 51 holds as well. With
no limit nothing is added. A time of 2 ^ 63 counts as the oldest. -/
theorem collectSizeStale_not_minimal :
    (let settings := smallSettings 50 51 (by decide) (by decide) (by decide)
      let m : Memory := { map := [⟨⟨0, 1⟩, { useTime := 1, size := 50 }⟩,
        ⟨⟨0, 2⟩, { useTime := 1, size := 1 }⟩, ⟨⟨0, 3⟩, { useTime := 1, size := 50 }⟩,
        ⟨⟨0, 4⟩, { useTime := 2, size := 50 }⟩].toAList, totalSize := 151 }
      m.collectSizeStale settings ([], 0) = ([⟨0, 1⟩, ⟨0, 2⟩, ⟨0, 3⟩], 101)) ∧
    (let settings := smallSettings 50 0 (by decide) (by decide) (by decide)
      let m : Memory := {
        map := [⟨⟨0, 1⟩, { useTime := 1, size := 50 }⟩].toAList
        totalSize := 50 }
      m.collectSizeStale settings ([], 0) = ([], 0)) ∧
    (let settings := smallSettings 1 2 (by decide) (by decide) (by decide)
      let m : Memory := { map := [⟨⟨0, 1⟩, { useTime := 0x8000000000000000, size := 1 }⟩,
        ⟨⟨0, 2⟩, { useTime := 1, size := 1 }⟩, ⟨⟨0, 3⟩, { useTime := 2, size := 1 }⟩,
        ⟨⟨0, 4⟩, { useTime := 3, size := 1 }⟩].toAList, totalSize := 4 }
      m.collectSizeStale settings ([], 0) = ([⟨0, 1⟩, ⟨0, 2⟩], 2)) := by
  decide +kernel

end Memory

end Bettergram.Storage.Cache
