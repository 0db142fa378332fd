import Bettergram.Storage.FileDownload
import Mathlib.Data.List.Nodup
import Mathlib.Data.List.Lemmas
import Mathlib.Tactic.Ring

/-! # Requests of a file loader

Placing and finishing a request keep the count of the queue and the amounts of
the downloader in step with the table of the loader; what is in flight is in
the table, and a finished loader has nothing there.
-/

namespace Bettergram.Storage.FileDownload

/-- How many requests of the table went to a session of a data center. -/
def Loader.requestsTo (l : Loader) (dcId index : ℕ) : ℕ :=
  l.sentRequests.countP fun entry => entry.2.dcId = dcId ∧ entry.2.dcIndex = index

/-- The requests that are made for a file on a CDN. -/
def Kind.cdn : Kind → Bool
  | .file => false
  | .webFile => false
  | .cdnFile => true
  | .reuploadCdnFile => true
  | .cdnFileHashes => true

namespace Turn

/-- The shared numbers changed by what the table of the loader changed by, and ids only grow. -/
structure Balanced (t t' : Turn) : Prop where
  count : t'.shared.queriesCount - t'.loader.sentRequests.length =
    t.shared.queriesCount - t.loader.sentRequests.length
  amount : ∀ dcId index, t'.shared.requestedAmount dcId index -
      partSize * t'.loader.requestsTo dcId index =
    t.shared.requestedAmount dcId index - partSize * t.loader.requestsTo dcId index
  nextId : t.shared.nextId ≤ t'.shared.nextId

theorem Balanced.refl (t : Turn) : Balanced t t := ⟨rfl, fun _ _ => rfl, le_rfl⟩

theorem Balanced.trans {t t' t'' : Turn} (h : Balanced t t') (h' : Balanced t' t'') :
    Balanced t t'' where
  count := h'.count.trans h.count
  amount dcId index := (h'.amount dcId index).trans (h.amount dcId index)
  nextId := h.nextId.trans h'.nextId

/-- Changes that leave the table and the shared numbers alone. -/
theorem Balanced.of_eq {t t' : Turn} (hsent : t'.loader.sentRequests = t.loader.sentRequests)
    (hcount : t'.shared.queriesCount = t.shared.queriesCount)
    (hamount : t'.shared.requestedAmount = t.shared.requestedAmount)
    (hid : t'.shared.nextId = t.shared.nextId) : Balanced t t' where
  count := by rw [hsent, hcount]
  amount dcId index := by rw [Loader.requestsTo, Loader.requestsTo, hsent, hamount]
  nextId := hid.ge

/-- What holds of a loader between two events; `nextId` is the id to be given next. -/
structure Sound (l : Loader) (nextId : ℕ) : Prop where
  sent_lt : ∀ entry ∈ l.sentRequests, 0 < entry.1 ∧ entry.1 < nextId
  sent_nodup : (l.sentRequests.map Prod.fst).Nodup
  flight_sent : ∀ f ∈ l.flight, f.id ∈ l.sentRequests.map Prod.fst
  refresh_lt : ∀ r ∈ l.refreshes, r.requestId < nextId
  marker_lt : l.cdnHashesRequestId < nextId
  refresh_flight : ∀ r ∈ l.refreshes, ∀ f ∈ l.flight, f.id ≠ r.requestId
  finished_sent : l.finished = true → l.sentRequests = []
  hashes : ∀ f ∈ l.flight, f.kind = .cdnFileHashes → l.cdnHashesRequestId = f.id
  kinds : ∀ f ∈ l.flight, (f.kind.cdn = true ↔ l.cdn.dcId ≠ 0) ∧ f.token = l.cdn.token
  cdnValid : l.cdn.dcId ≠ 0 →
    l.cdn.encryptionKey.length = kKeySize ∧ l.cdn.encryptionIV.length = kIvecSize

theorem Sound.mono {l : Loader} {n m : ℕ} (h : Sound l n) (hle : n ≤ m) : Sound l m :=
  { h with
    sent_lt := fun entry hentry =>
      ⟨(h.sent_lt entry hentry).1, (h.sent_lt entry hentry).2.trans_le hle⟩
    refresh_lt := fun r hr => (h.refresh_lt r hr).trans_le hle
    marker_lt := h.marker_lt.trans_le hle }

theorem Sound.flight_nil {l : Loader} {n : ℕ} (h : Sound l n) (hsent : l.sentRequests = []) :
    l.flight = [] := by
  rw [List.eq_nil_iff_forall_not_mem]
  intro f hf
  have := h.flight_sent f hf
  rw [hsent] at this
  simp at this

/-! ### Placing a request -/

theorem sendAndPlace_spec {t : Turn} (kind : Kind) (data : RequestData)
    (hfinished : t.loader.finished = false) :
    ∃ t', t.sendAndPlace kind data = some t' ∧
      t'.loader = { t.loader with
        flight := t.loader.flight ++ [⟨t.shared.nextId, kind, t.loader.cdn.token⟩]
        sentRequests := t.loader.sentRequests ++ [(t.shared.nextId, data)] } ∧
      t'.shared.nextId = t.shared.nextId + 1 ∧ t'.shared.writes = t.shared.writes ∧
      Balanced t t' := by
  refine ⟨_, if_neg (by simpa [send] using hfinished), rfl, rfl, rfl, ?_, ?_, ?_⟩
  · simp [send, Shared.requestedAmountIncrement]
  · intro dcId index
    simp only [send, Shared.requestedAmountIncrement, Loader.requestsTo, List.countP_append,
      List.countP_singleton]
    by_cases hdc : dcId = data.dcId
    · subst hdc
      by_cases hindex : index = data.dcIndex
      · subst hindex
        simp
        ring
      · simp [Function.update_of_ne hindex, Ne.symm hindex]
    · simp [Function.update_of_ne hdc, Ne.symm hdc]
  · exact Nat.le_succ _

/-- A new request, and the mark when it is one for hashes. -/
theorem Sound.send {l : Loader} {n marker : ℕ} {kind : Kind} (data : RequestData)
    (h : Sound l n) (hpos : 0 < n) (hfinished : l.finished = false)
    (hkind : kind.cdn = true ↔ l.cdn.dcId ≠ 0)
    (hmarker : (kind = .cdnFileHashes ∧ marker = n ∧ l.cdnHashesRequestId = 0) ∨
      (kind ≠ .cdnFileHashes ∧ marker = l.cdnHashesRequestId)) :
    Sound { l with
      flight := l.flight ++ [⟨n, kind, l.cdn.token⟩]
      sentRequests := l.sentRequests ++ [(n, data)]
      cdnHashesRequestId := marker } (n + 1) := by
  constructor <;> dsimp only
  · intro entry hentry
    obtain hold | rfl := List.mem_append.mp hentry |>.imp_right List.mem_singleton.mp
    · have := h.sent_lt entry hold
      omega
    · exact ⟨hpos, Nat.lt_succ_self _⟩
  · rw [List.map_append, List.nodup_append]
    refine ⟨h.sent_nodup, by simp, ?_⟩
    intro id hid other hother heq
    obtain ⟨entry, hentry, rfl⟩ := List.mem_map.mp hid
    have := (h.sent_lt entry hentry).2
    rw [List.map_singleton, List.mem_singleton] at hother
    omega
  · intro f hf
    rw [List.map_append, List.mem_append]
    obtain hold | rfl := List.mem_append.mp hf |>.imp_right List.mem_singleton.mp
    · exact .inl (h.flight_sent f hold)
    · exact .inr (by simp)
  · intro r hr
    exact (h.refresh_lt r hr).trans (Nat.lt_succ_self _)
  · have := h.marker_lt
    obtain ⟨-, hmark, -⟩ | ⟨-, hmark⟩ := hmarker <;> omega
  · intro r hr f hf
    obtain hold | rfl := List.mem_append.mp hf |>.imp_right List.mem_singleton.mp
    · exact h.refresh_flight r hr f hold
    · exact (h.refresh_lt r hr).ne'
  · intro h
    rw [hfinished] at h
    cases h
  · intro f hf hhashes
    obtain ⟨hnew, hmark, hzero⟩ | ⟨hnew, hmark⟩ := hmarker
    · obtain hold | rfl := List.mem_append.mp hf |>.imp_right List.mem_singleton.mp
      · -- no other request for hashes is in flight when the mark is 0
        obtain ⟨entry, hentry, hid⟩ := List.mem_map.mp (h.flight_sent f hold)
        have hsent := (h.sent_lt entry hentry).1
        rw [hid, ← h.hashes f hold hhashes, hzero] at hsent
        exact absurd hsent (lt_irrefl _)
      · exact hmark
    · obtain hold | rfl := List.mem_append.mp hf |>.imp_right List.mem_singleton.mp
      · exact hmark.trans (h.hashes f hold hhashes)
      · exact absurd hhashes hnew
  · intro f hf
    obtain hold | rfl := List.mem_append.mp hf |>.imp_right List.mem_singleton.mp
    · exact h.kinds f hold
    · exact ⟨hkind, rfl⟩
  · exact h.cdnValid

theorem makeRequest_eq {t : Turn} (offset : ℕ) (hfinished : t.loader.finished = false) :
    t.makeRequest offset =
      t.sendAndPlace t.loader.requestKind (t.prepareRequest offset) :=
  if_neg (by simp [hfinished])

theorem requestKind_ne (l : Loader) : l.requestKind ≠ .cdnFileHashes := by
  unfold Loader.requestKind
  split
  · decide
  · split <;> decide

theorem requestKind_cdn (l : Loader) : l.requestKind.cdn = true ↔ l.cdn.dcId ≠ 0 := by
  unfold Loader.requestKind
  split
  · rename_i hcdn
    exact iff_of_true rfl hcdn
  · rename_i hcdn
    refine iff_of_false ?_ hcdn
    split <;> decide

/-- `sendAndPlace` of a request that is not for hashes. -/
theorem sendAndPlace_sound {t : Turn} {kind : Kind} (data : RequestData)
    (hfinished : t.loader.finished = false) (hsound : Sound t.loader t.shared.nextId)
    (hpos : 0 < t.shared.nextId) (hkind : kind ≠ .cdnFileHashes)
    (hcdn : kind.cdn = true ↔ t.loader.cdn.dcId ≠ 0) :
    ∃ t', t.sendAndPlace kind data = some t' ∧ Balanced t t' ∧
      Sound t'.loader t'.shared.nextId ∧
      t'.loader = { t.loader with
        flight := t.loader.flight ++ [⟨t.shared.nextId, kind, t.loader.cdn.token⟩]
        sentRequests := t.loader.sentRequests ++ [(t.shared.nextId, data)] } := by
  obtain ⟨t', ht', hloader, hid, -, hbalanced⟩ := sendAndPlace_spec kind data hfinished
  refine ⟨t', ht', hbalanced, ?_, hloader⟩
  rw [hloader, hid]
  exact hsound.send data hpos hfinished hcdn (.inr ⟨hkind, rfl⟩)

theorem makeRequest_sound {t : Turn} (offset : ℕ) (hfinished : t.loader.finished = false)
    (hsound : Sound t.loader t.shared.nextId) (hpos : 0 < t.shared.nextId) :
    ∃ t', t.makeRequest offset = some t' ∧ Balanced t t' ∧ Sound t'.loader t'.shared.nextId ∧
      t'.loader = { t.loader with
        flight := t.loader.flight ++ [⟨t.shared.nextId, t.loader.requestKind, t.loader.cdn.token⟩]
        sentRequests := t.loader.sentRequests ++
          [(t.shared.nextId, t.prepareRequest offset)] } := by
  rw [makeRequest_eq offset hfinished]
  exact sendAndPlace_sound _ hfinished hsound hpos (requestKind_ne _) (requestKind_cdn _)

/-! ### Finishing a request -/

theorem length_filter_ne {entries : List (ℕ × RequestData)} {entry : ℕ × RequestData}
    (hnodup : (entries.map Prod.fst).Nodup) (hmem : entry ∈ entries) :
    entries.countP (fun other => other.1 ≠ entry.1) + 1 = entries.length ∧
      ∀ p : ℕ × RequestData → Bool,
        (entries.filter fun other => other.1 ≠ entry.1).countP p + (if p entry then 1 else 0) =
          entries.countP p := by
  induction entries with
  | nil => cases hmem
  | cons first rest ih =>
    rw [List.map_cons, List.nodup_cons] at hnodup
    obtain rfl | hrest := List.mem_cons.mp hmem
    · have hall : ∀ other ∈ rest, decide (other.1 ≠ entry.1) = true := by
        intro other hother
        rw [decide_eq_true_eq]
        exact fun heq => hnodup.1 (heq ▸ List.mem_map_of_mem hother)
      constructor
      · rw [List.countP_cons_of_neg (by simp), List.countP_eq_length.mpr hall, List.length_cons]
      · intro p
        rw [List.filter_cons_of_neg (by simp), List.filter_eq_self.mpr hall, List.countP_cons]
    · have hne : decide (first.1 ≠ entry.1) = true := by
        rw [decide_eq_true_eq]
        exact fun heq => hnodup.1 (heq ▸ List.mem_map_of_mem hrest)
      obtain ⟨hcount, hfilter⟩ := ih hnodup.2 hrest
      constructor
      · rw [List.countP_cons, if_pos hne, List.length_cons, hcount]
      · intro p
        rw [List.filter_cons, if_pos hne, List.countP_cons, List.countP_cons, ← hfilter p]
        omega

/-- A request of the table is finished: it leaves the table and the shared numbers. -/
theorem finish_spec {t : Turn} {requestId : ℕ}
    (hnodup : (t.loader.sentRequests.map Prod.fst).Nodup)
    (hmem : requestId ∈ t.loader.sentRequests.map Prod.fst) :
    ∃ t' data, t.finishSentRequestGetOffset requestId = some (t', data.offset) ∧
      (requestId, data) ∈ t.loader.sentRequests ∧
      t'.loader = { t.loader with
        sentRequests := t.loader.sentRequests.filter fun other => other.1 ≠ requestId } ∧
      t'.shared.nextId = t.shared.nextId ∧ t'.shared.writes = t.shared.writes ∧
      Balanced t t' := by
  obtain ⟨entry, hentry, hfirst⟩ := List.mem_map.mp hmem
  have hsome : ∃ found, t.loader.sentRequests.find? (fun other => other.1 = requestId) =
      some found := by
    rw [← Option.isSome_iff_exists, List.find?_isSome]
    exact ⟨entry, hentry, by simpa using hfirst⟩
  obtain ⟨⟨id, data⟩, hfound⟩ := hsome
  have hid : id = requestId := by simpa using List.find?_some hfound
  have hin : (id, data) ∈ t.loader.sentRequests := List.mem_of_find?_eq_some hfound
  subst hid
  obtain ⟨hcount, hfilter⟩ := length_filter_ne hnodup hin
  rw [List.countP_eq_length_filter] at hcount
  dsimp only at hcount
  have hfinish : t.finishSentRequestGetOffset id = some ((
      { loader := { t.loader with
          sentRequests := t.loader.sentRequests.filter fun other => other.1 ≠ id }
        shared :=
          { t.shared.requestedAmountIncrement data.dcId data.dcIndex (-partSize) with
            queriesCount := t.shared.queriesCount - 1 } } : Turn), data.offset) := by
    rw [finishSentRequestGetOffset, hfound, Option.map_some]
    rfl
  refine ⟨_, data, hfinish, hin, rfl, rfl, rfl, ?_, ?_, le_rfl⟩
  · dsimp only
    omega
  · intro dcId index
    have hto := hfilter fun entry => entry.2.dcId = dcId ∧ entry.2.dcIndex = index
    simp only [Shared.requestedAmountIncrement, Loader.requestsTo]
    rw [← hto]
    by_cases hdc : dcId = data.dcId
    · subst hdc
      by_cases hindex : index = data.dcIndex
      · subst hindex
        simp
        ring
      · simp [Function.update_of_ne hindex, Ne.symm hindex]
    · simp [Function.update_of_ne hdc, Ne.symm hdc]

theorem mem_filter_fst {entries : List (ℕ × RequestData)} {requestId id : ℕ} :
    id ∈ (entries.filter fun other => other.1 ≠ requestId).map Prod.fst ↔
      id ∈ entries.map Prod.fst ∧ id ≠ requestId := by
  simp only [List.mem_map, List.mem_filter, decide_eq_true_eq]
  constructor
  · rintro ⟨entry, ⟨hentry, hne⟩, rfl⟩
    exact ⟨⟨entry, hentry, rfl⟩, hne⟩
  · rintro ⟨⟨entry, hentry, rfl⟩, hne⟩
    exact ⟨entry, ⟨hentry, hne⟩, rfl⟩

/-- The table without one request, of which no answer comes any more. -/
theorem Sound.finish {l : Loader} {n requestId : ℕ} (h : Sound l n)
    (hflight : ∀ f ∈ l.flight, f.id ≠ requestId) :
    Sound { l with sentRequests := l.sentRequests.filter fun other => other.1 ≠ requestId } n where
  sent_lt entry hentry := h.sent_lt entry (List.mem_of_mem_filter hentry)
  sent_nodup := (h.sent_nodup.sublist (List.Sublist.map _ List.filter_sublist))
  flight_sent f hf := mem_filter_fst.mpr ⟨h.flight_sent f hf, hflight f hf⟩
  refresh_lt := h.refresh_lt
  marker_lt := h.marker_lt
  refresh_flight := h.refresh_flight
  finished_sent hfinished := by
    dsimp only at hfinished ⊢
    rw [h.finished_sent hfinished, List.filter_nil]
  hashes := h.hashes
  kinds := h.kinds
  cdnValid := h.cdnValid

theorem Sound.forget {l : Loader} {n : ℕ} (h : Sound l n) (requestId : ℕ) :
    Sound { l with flight := l.flight.filter fun f => f.id ≠ requestId } n :=
  { h with
    flight_sent := fun f hf => h.flight_sent f (List.mem_of_mem_filter hf)
    refresh_flight := fun r hr f hf => h.refresh_flight r hr f (List.mem_of_mem_filter hf)
    hashes := fun f hf => h.hashes f (List.mem_of_mem_filter hf)
    kinds := fun f hf => h.kinds f (List.mem_of_mem_filter hf) }

/-! ### Finishing all requests -/

/-- The loop of `cancelRequests` empties the table and what is in flight. -/
theorem finishAll_spec {t : Turn} {n : ℕ} (hlength : t.loader.sentRequests.length ≤ n)
    (hnodup : (t.loader.sentRequests.map Prod.fst).Nodup) :
    ∃ t', finishAll n t =
        some (t', t.loader.sentRequests.map fun entry => entry.2.offset) ∧
      t'.loader = { t.loader with
        sentRequests := []
        flight := t.loader.flight.filter fun f =>
          f.id ∉ t.loader.sentRequests.map Prod.fst } ∧
      t'.shared.nextId = t.shared.nextId ∧ t'.shared.writes = t.shared.writes ∧
      Balanced t t' := by
  induction n generalizing t with
  | zero =>
    have hnil : t.loader.sentRequests = [] := List.length_eq_zero_iff.mp (by omega)
    refine ⟨t, by rw [finishAll, hnil, List.map_nil], ?_, rfl, rfl, Balanced.refl t⟩
    obtain ⟨l, s⟩ := t
    dsimp only at hnil ⊢
    cases l
    simp_all
  | succ n ih =>
    cases hsent : t.loader.sentRequests with
    | nil =>
      refine ⟨t, ?_, ?_, rfl, rfl, Balanced.refl t⟩
      · rw [finishAll, hsent]
        rfl
      · obtain ⟨l, s⟩ := t
        cases l
        simp_all
    | cons first rest =>
      have hnodup' : ((t.forget first.1).loader.sentRequests.map Prod.fst).Nodup := hnodup
      have hmem : first.1 ∈ (t.forget first.1).loader.sentRequests.map Prod.fst := by
        rw [forget, hsent]
        simp
      obtain ⟨t₁, data, hfinish, hin, hloader, hid, hwrites, hbalanced⟩ := finish_spec hnodup' hmem
      rw [hsent, List.map_cons, List.nodup_cons] at hnodup
      have hrest : t₁.loader.sentRequests = rest := by
        rw [hloader, forget]
        dsimp only
        rw [hsent, List.filter_cons_of_neg (by simp), List.filter_eq_self]
        intro other hother
        rw [decide_eq_true_eq]
        exact fun heq => hnodup.1 (heq ▸ List.mem_map_of_mem hother)
      have hdata : data = first.2 := by
        rw [forget, hsent] at hin
        obtain heq | hin := List.mem_cons.mp hin
        · exact congrArg Prod.snd heq
        · exact absurd (List.mem_map_of_mem hin) hnodup.1
      obtain ⟨t₂, hall, hloader₂, hid₂, hwrites₂, hbalanced₂⟩ :=
        ih (by rw [hrest]; rw [hsent, List.length_cons] at hlength; omega)
          (by rw [hrest]; exact hnodup.2)
      have hforget : Balanced t (t.forget first.1) := Balanced.of_eq rfl rfl rfl rfl
      refine ⟨t₂, ?_, ?_, hid₂.trans hid, hwrites₂.trans hwrites,
        (hforget.trans hbalanced).trans hbalanced₂⟩
      · rw [finishAll, hsent]
        dsimp only
        rw [hfinish, Option.bind_some]
        dsimp only
        rw [hall, Option.map_some, hrest, hdata, List.map_cons]
      · rw [hloader₂, hrest, hloader, forget]
        dsimp only
        rw [List.filter_filter, List.map_cons]
        congr 1
        refine List.filter_congr fun f _ => ?_
        rw [← Bool.decide_and, decide_eq_decide, List.mem_cons]
        tauto


end Turn

end Bettergram.Storage.FileDownload
