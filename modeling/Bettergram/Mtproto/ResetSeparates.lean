import Bettergram.Mtproto.ResetCollisions

/-! # Requests apart after a reset

What the end of a reset does to the maps and to the requests, and when all of
them are still there under ids of their own.
-/

namespace Bettergram.Mtproto
open Foundation

namespace SessionData

variable {clock : ℕ → MsgId} {s : SessionData} {x : Resetting} {msgId old new : MsgId}
  {ref : RequestRef}

/-! ## The end of a reset -/

/-- What is done behind the loop. -/
def finishReset (x : Resetting) : SessionData :=
  let s := { x.session with messagesSent := 0 }
  let s := x.setSeqNumbers.values.foldl renumber s
  let s := x.replaces.toList.foldl (fun s ids => s.renameInMaps ids.1 ids.2) s
  let s := s.renameInContainers fun id => (x.replaces[id]?).getD id
  { s with ackRequestData := [], resendRequestData := [], stateRequest := ∅ }

theorem resetSession_eq (clock : ℕ → MsgId) (s : SessionData) : s.resetSession clock =
    finishReset (resetAll clock s.requestsToReset
      { session := (s.nextMsgId clock).2, newId := (s.nextMsgId clock).1 }) := rfl

/-- The maps are as they were, and a request has at most another number. -/
structure Renumbered (s t : SessionData) (refs : List RequestRef) : Prop where
  rest : ∃ requests messagesSent, t = { s with requests, messagesSent }
  seqNo : ∀ ref, ∃ seqNo, t.requests ref = { s.requests ref with seqNo }
  other : ∀ ref, ref ∉ refs → t.requests ref = s.requests ref

theorem renumbered (s : SessionData) (refs : List RequestRef) :
    s.Renumbered (refs.foldl renumber s) refs := by
  induction refs generalizing s with
  | nil => exact ⟨⟨_, _, rfl⟩, fun _ => ⟨_, rfl⟩, fun _ _ => rfl⟩
  | cons ref refs ih =>
    obtain ⟨⟨requests, n, hrest⟩, hseqNo, hother⟩ := ih (renumber s ref)
    refine ⟨⟨requests, n, hrest⟩, fun ref' => ?_, fun ref' hnot => ?_⟩
    · obtain ⟨seqNo, hsame⟩ := hseqNo ref'
      refine ⟨seqNo, hsame.trans ?_⟩
      by_cases heq : ref' = ref
      · rw [heq, renumber]
        dsimp only
        rw [update_requests_self]
        rfl
      · rw [renumber]
        dsimp only
        rw [update_requests_of_ne heq]
        rfl
    · rw [List.mem_cons, not_or] at hnot
      exact (hother ref' hnot.2).trans (update_requests_of_ne hnot.1 _ _)

/-- The maps with all ids replaced. -/
def renameKeys {α : Type} (ids : List (MsgId × MsgId)) (t : Std.TreeMap MsgId α) :
    Std.TreeMap MsgId α := ids.foldl (fun t ids => rename t ids.1 ids.2) t

theorem renameAll_maps (ids : List (MsgId × MsgId)) (s : SessionData) :
    ids.foldl (fun s ids => s.renameInMaps ids.1 ids.2) s = { s with
      toResend := renameKeys ids s.toResend
      wereAcked := renameKeys ids s.wereAcked
      haveSent := renameKeys ids s.haveSent } := by
  induction ids generalizing s with
  | nil => rfl
  | cons ids rest ih => exact ih _

theorem finishReset_requests (x : Resetting) (ref : RequestRef) :
    ((finishReset x).requests ref).msgId = (x.session.requests ref).msgId ∧
      ((finishReset x).requests ref).after = (x.session.requests ref).after := by
  have hnumbers := renumbered { x.session with messagesSent := 0 } x.setSeqNumbers.values
  obtain ⟨seqNo, hseqNo⟩ := hnumbers.seqNo ref
  rw [finishReset]
  dsimp only
  generalize x.setSeqNumbers.values.foldl renumber { x.session with messagesSent := 0 } = t at *
  have hrename := congrArg SessionData.requests (renameAll_maps x.replaces.toList t)
  generalize x.replaces.toList.foldl (fun s ids => s.renameInMaps ids.1 ids.2) t = u at *
  obtain ⟨body, hbody⟩ := renameInContainers_same (fun id => (x.replaces[id]?).getD id) u ref
  rw [hbody, hrename, hseqNo]
  exact ⟨rfl, rfl⟩

theorem finishReset_rest (x : Resetting) : (finishReset x).toSend = x.session.toSend ∧
    (finishReset x).msgIdCalls = x.session.msgIdCalls ∧
    (finishReset x).haveSent = renameKeys x.replaces.toList x.session.haveSent ∧
    (finishReset x).toResend = renameKeys x.replaces.toList x.session.toResend ∧
    (finishReset x).wereAcked = renameKeys x.replaces.toList x.session.wereAcked := by
  obtain ⟨requests, n, hrest⟩ :=
    (renumbered { x.session with messagesSent := 0 } x.setSeqNumbers.values).rest
  rw [finishReset]
  dsimp only [renameInContainers]
  rw [renameAll_maps, hrest]
  exact ⟨rfl, rfl, rfl, rfl, rfl⟩

/-- The ids that a container lists are renamed. -/
theorem finishReset_container (h : s.ResetFrom x) (hcontainer : (s.requests ref).isSentContainer)
    (hsent : (finishReset x).haveSent[msgId]? = some ref) :
    ((finishReset x).requests ref).body =
      mapLongs (fun id => (x.replaces[id]?).getD id) (s.requests ref).body := by
  have hnumbers := renumbered { x.session with messagesSent := 0 } x.setSeqNumbers.values
  have hother := hnumbers.other ref fun hmem => by
    have hrequest := h.numbered ref hmem
    rw [hcontainer] at hrequest
    exact absurd hrequest (by simp)
  rw [finishReset] at hsent ⊢
  dsimp only at hsent ⊢
  generalize x.setSeqNumbers.values.foldl renumber { x.session with messagesSent := 0 } = t at *
  have hrename := congrArg SessionData.requests (renameAll_maps x.replaces.toList t)
  generalize x.replaces.toList.foldl (fun s ids => s.renameInMaps ids.1 ids.2) t = u at *
  obtain ⟨msgId', hsame⟩ := h.same ref
  have hrequest : u.requests ref = { s.requests ref with msgId := msgId' } := by
    rw [hrename, hother, ← hsame]
  have hmem : u.haveSent.values.contains ref = true := by
    rw [List.contains_iff_mem]
    exact mem_values.mpr ⟨msgId, hsent⟩
  have hstill : (u.requests ref).isSentContainer = true := by
    rw [hrequest]
    exact hcontainer
  rw [renameInContainers]
  dsimp only
  rw [if_pos ⟨hmem, hstill⟩, hrequest]


/-! ## Nothing lost -/

/-- What a reset should do. A container is only looked up by its id, which stays; the ids that it
lists are those of the same requests. -/
structure Separates (clock : ℕ → MsgId) (s t : SessionData) : Prop where
  apart : t.Apart
  kept : ∃ f : MsgId → MsgId,
    (∀ msgId holder, s.Holds msgId holder → t.Holds (f msgId) holder) ∧
    (∀ msgId, (∀ holder, ¬ s.Holds msgId holder) → f msgId = msgId) ∧
    ∀ (msgId : MsgId) (container : RequestRef), s.haveSent[msgId]? = some container →
      (s.requests container).isSentContainer →
        (t.requests container).body = mapLongs f (s.requests container).body
  toSend : t.toSend = s.toSend
  dependency : ∀ msgId request after, (s.requests request).after = some after →
    s.KeptUnder msgId after →
      (t.requests request).after = some after ∧ t.KeptUnder (t.requests after).msgId after
  usable : ∀ (msgId : MsgId) (request : RequestRef), t.haveSent[msgId]? = some request →
    ¬ (s.requests request).isSentContainer →
      ∃ i, s.msgIdCalls ≤ i ∧ i < t.msgIdCalls ∧ msgId ≤ clock i

/-- The holders move with their ids. -/
structure Renames (f : MsgId → MsgId) (s t : SessionData) : Prop where
  toSend : t.toSend = s.toSend
  holds : ∀ msgId holder, t.Holds msgId holder ↔ ∃ k, s.Holds k holder ∧ f k = msgId
  inj : ∀ {k k' holder holder'}, s.Holds k holder → s.Holds k' holder' → f k = f k' → k = k'
  msgId : ∀ {k ref}, s.KeptUnder k ref → (t.requests ref).msgId = f k

variable {t : SessionData} {f : MsgId → MsgId}

theorem Renames.apart (h : Renames f s t) (hs : s.Apart) : t.Apart where
  one := by
    intro m holder holder' hm hm'
    obtain ⟨k, hk, rfl⟩ := (h.holds m holder).mp hm
    obtain ⟨k', hk', heq⟩ := (h.holds _ holder').mp hm'
    obtain rfl := h.inj hk' hk heq
    exact hs.one hk hk'
  sent := by
    intro m request hm
    obtain ⟨k, hk, rfl⟩ := (h.holds m (.sent request)).mp hm
    exact h.msgId (.sent hk)
  lost := by
    intro m requestId request hm hwaits
    obtain ⟨k, hk, rfl⟩ := (h.holds m (.lost requestId)).mp hm
    exact h.msgId (.lost requestId hk (h.toSend ▸ hwaits))

theorem Renames.keptUnder (h : Renames f s t) {k : MsgId} (hkept : s.KeptUnder k ref) :
    t.KeptUnder (t.requests ref).msgId ref := by
  rw [h.msgId hkept]
  cases hkept with
  | sent hsent => exact .sent ((h.holds (f k) (.sent ref)).mpr ⟨k, hsent, rfl⟩)
  | lost requestId hresend hwaits =>
    exact .lost requestId ((h.holds (f k) (.lost requestId)).mpr ⟨k, hresend, rfl⟩)
      (h.toSend ▸ hwaits)

/-- One id in the place of another. -/
def replaceId (old new msgId : MsgId) : MsgId := if msgId = old then new else msgId

theorem rename_holds {β : Type} {t : Std.TreeMap MsgId β} (hnew : t[new]? = none) (m : MsgId)
    (v : β) : (rename t old new)[m]? = some v ↔ ∃ k : MsgId, t[k]? = some v ∧ replaceId old new k = m := by
  rw [rename_getElem? t old new m hnew]
  constructor
  · intro hm
    split_ifs at hm with hn ho
    · exact ⟨old, hm, by rw [replaceId, if_pos rfl, hn]⟩
    · exact ⟨m, hm, if_neg (Ne.symm ho)⟩
  · rintro ⟨k, hk, rfl⟩
    have hkn : k ≠ new := by
      rintro rfl
      rw [hnew] at hk
      exact absurd hk (by simp)
    by_cases ho : k = old
    · rw [replaceId, if_pos ho, if_pos rfl, ← ho, hk]
    · rw [replaceId, if_neg ho, if_neg (Ne.symm hkn), if_neg (Ne.symm ho), hk]

theorem replaceId_inj {k k' : MsgId} (hk : k ≠ new) (hk' : k' ≠ new)
    (heq : replaceId old new k = replaceId old new k') : k = k' := by
  simp only [replaceId] at heq
  split_ifs at heq with h h' h'
  · rw [h, h']
  · exact absurd heq.symm hk'
  · exact absurd heq hk
  · exact heq


/-! ## Exactly when -/

theorem resetStart (clock : ℕ → MsgId) (s : SessionData) : s.ResetStart clock
    { session := (s.nextMsgId clock).2, newId := (s.nextMsgId clock).1 } := by
  refine ⟨⟨⟨_, _, rfl⟩, fun _ => ⟨_, rfl⟩, fun ref hmem => ?_⟩, rfl, rfl⟩
  obtain ⟨k, hk⟩ := mem_values.mp hmem
  exact absurd hk (by simp)

theorem Separates.keptUnder (h : Separates clock s t) {k : MsgId} (hkept : s.KeptUnder k ref) :
    ∃ m, t.KeptUnder m ref := by
  obtain ⟨f, hholds, -, -⟩ := h.kept
  cases hkept with
  | sent hsent => exact ⟨f k, .sent (hholds k (.sent ref) hsent)⟩
  | lost requestId hresend hwaits =>
    exact ⟨f k, .lost requestId (hholds k (.lost requestId) hresend) (h.toSend ▸ hwaits)⟩

theorem Separates.oneAbove (h : Separates clock s (s.resetSession clock)) (hs : s.Apart)
    (hclock : s.Advances clock) : s.OneAbove clock s.requestsToReset := by
  by_contra hnot
  obtain ⟨y, hy, z, hz, hne, heq⟩ :=
    resetAll_collides (resetStart clock s) hclock hs.nodup_requests hnot
  obtain ⟨m, hm⟩ := h.keptUnder (mem_requestsToReset hy)
  obtain ⟨m', hm'⟩ := h.keptUnder (mem_requestsToReset hz)
  have hmsgId := h.apart.msgId_of_kept hm
  have hmsgId' := h.apart.msgId_of_kept hm'
  rw [resetSession_eq, (finishReset_requests _ _).1] at hmsgId hmsgId'
  have hsame : m = m' := by rw [← hmsgId, ← hmsgId', heq]
  exact hne (h.apart.eq_of_kept hm (hsame ▸ hm'))

theorem mem_requestsToReset_of_kept {k : MsgId} (h : s.KeptUnder k ref) :
    (k, ref) ∈ s.requestsToReset := by
  cases h with
  | sent hsent =>
    exact List.mem_append_left _ (Std.TreeMap.mem_toList_iff_getElem?_eq_some.mpr hsent)
  | lost requestId hresend hwaits =>
    refine List.mem_append_right _ (List.mem_filterMap.mpr ⟨(k, requestId), ?_, ?_⟩)
    · exact Std.TreeMap.mem_toList_iff_getElem?_eq_some.mpr hresend
    · simp [hwaits]

/-- A request that is no container is reset, or its id is zero. -/
theorem Apart.isReset_or (h : s.Apart) {k : MsgId} (hkept : s.KeptUnder k ref)
    (hrequest : ¬ (s.requests ref).isSentContainer) : s.isReset ref ∨ k = 0 := by
  rw [← h.msgId_of_kept hkept]
  by_cases hzero : (s.requests ref).msgId = 0
  · exact .inr hzero
  · exact .inl (by simp [isReset, hrequest, hzero])

/-- The new ids of a loop without collisions. -/
structure ResetsTo (clock : ℕ → MsgId) (s : SessionData) (x : Resetting) (f : MsgId → MsgId) :
    Prop where
  renames : Renames f s (finishReset x)
  other : ∀ msgId, (∀ holder, ¬ s.Holds msgId holder) → f msgId = msgId
  replaces : (fun id => (x.replaces[id]?).getD id) = f
  usable : ∃ i, s.msgIdCalls + i < x.session.msgIdCalls ∧ ∀ msgId ref, s.KeptUnder msgId ref →
    ¬ (s.requests ref).isSentContainer → f msgId ≤ clock (s.msgIdCalls + i)

theorem finishReset_holds (x : Resetting) (k : MsgId) (holder : Holder)
    (hids : x.replaces.toList = []) : (finishReset x).Holds k holder ↔ x.session.Holds k holder := by
  obtain ⟨-, -, hsent, hresend, hacked⟩ := finishReset_rest x
  rw [hids] at hsent hresend hacked
  cases holder <;> simp [Holds, hsent, hresend, hacked, renameKeys]

theorem maps_none (h : s.isUsed new = false) :
    s.haveSent[new]? = none ∧ s.toResend[new]? = none ∧ s.wereAcked[new]? = none := by
  rw [← Bool.not_eq_true, isUsed_iff] at h
  simp only [Finset.mem_union, mem_keySet, not_or, notMem_iff_none] at h
  exact ⟨h.2, h.1.1, h.1.2⟩

theorem Holds.ne_unused {k : MsgId} {holder : Holder} (h : s.Holds k holder)
    (hunused : s.isUsed new = false) : k ≠ new := by
  rintro rfl
  obtain ⟨hsent, hresend, hacked⟩ := maps_none hunused
  cases holder with
  | sent request => exact absurd (hsent.symm.trans h) (by simp)
  | lost requestId => exact absurd (hresend.symm.trans h) (by simp)
  | acked requestId => exact absurd (hacked.symm.trans h) (by simp)

theorem finishReset_renames {d : SecureRequestData} {n : ℕ}
    (hsession : x.session = ({ s with msgIdCalls := n } : SessionData).update ref d)
    (hids : x.replaces.toList = [(old, new)]) (hunused : s.isUsed new = false) (k : MsgId)
    (holder : Holder) :
    (finishReset x).Holds k holder ↔ ∃ m, s.Holds m holder ∧ replaceId old new m = k := by
  obtain ⟨-, -, hsent, hresend, hacked⟩ := finishReset_rest x
  obtain ⟨hsent', hresend', hacked'⟩ := maps_none hunused
  rw [hids, hsession] at hsent hresend hacked
  cases holder with
  | sent request =>
    rw [Holds, hsent]
    exact rename_holds hsent' k request
  | lost requestId =>
    rw [Holds, hresend]
    exact rename_holds hresend' k requestId
  | acked requestId =>
    rw [Holds, hacked]
    exact rename_holds hacked' k requestId

theorem ResetsOnce.exists_resetsTo (h : s.ResetsOnce clock s.requestsToReset x) (hs : s.Apart)
    (hclock : s.Advances clock) : ∃ f, s.ResetsTo clock x f := by
  cases h with
  | none hsession hreplaces hbelow =>
    have hids : x.replaces.toList = [] := by
      rw [hreplaces]
      rfl
    refine ⟨id, ⟨(finishReset_rest x).1.trans (by rw [hsession]; rfl), fun k holder => ?_,
      fun _ _ heq => heq, fun {k ref} hkept => ?_⟩, fun _ _ => rfl, ?_, 0, ?_, ?_⟩
    · rw [finishReset_holds x k holder hids, hsession]
      constructor
      · exact fun hk => ⟨k, hk, rfl⟩
      · rintro ⟨_, hk, rfl⟩
        exact hk
    · rw [(finishReset_requests x ref).1, hsession]
      exact hs.msgId_of_kept hkept
    · rw [hreplaces]
      funext k
      simp
    · rw [hsession]
      exact Nat.lt_succ_self _
    · intro k ref hkept hrequest
      obtain hreset | rfl := hs.isReset_or hkept hrequest
      · exact UInt64.not_lt.mp (hbelow _ (mem_requestsToReset_of_kept hkept) hreset)
      · exact UInt64.zero_le
  | one z hz hreset j hfirst hsession hreplaces hbelow =>
    have hids : x.replaces.toList = [(z.1, s.firstUnused clock)] := by
      rw [hreplaces]
      exact toList_insert_empty _ _
    have hunused := isUsed_firstUnused hclock
    have hz' := mem_requestsToReset hz
    have hsame : ∀ {k ref}, s.KeptUnder k ref → (ref = z.2 ↔ k = z.1) := by
      refine fun {k ref} hkept => ⟨?_, ?_⟩
      · rintro rfl
        exact (hs.msgId_of_kept hkept).symm.trans (hs.msgId_of_kept hz')
      · rintro rfl
        exact hs.eq_of_kept hkept hz'
    refine ⟨replaceId z.1 (s.firstUnused clock),
      ⟨(finishReset_rest x).1.trans (by rw [hsession]; rfl), fun k holder => ?_, ?_, ?_⟩,
      ?_, ?_, j, ?_, ?_⟩
    · exact finishReset_renames hsession hids hunused k holder
    · intro k k' holder holder' hk hk'
      exact replaceId_inj (hk.ne_unused hunused) (hk'.ne_unused hunused)
    · intro k ref hkept
      rw [(finishReset_requests x ref).1, hsession]
      by_cases heq : ref = z.2
      · rw [heq, update_requests_self, replaceId, if_pos ((hsame hkept).mp heq)]
      · rw [update_requests_of_ne heq, replaceId, if_neg (heq ∘ (hsame hkept).mpr)]
        exact hs.msgId_of_kept hkept
    · intro k hnone
      refine if_neg fun heq => ?_
      subst heq
      cases hz' with
      | sent hsent => exact hnone (.sent z.2) hsent
      | lost requestId hresend _ => exact hnone (.lost requestId) hresend
    · rw [hreplaces]
      funext k
      rw [insert_getElem?, replaceId]
      by_cases heq : z.1 = k
      · rw [if_pos heq, if_pos heq.symm]
        rfl
      · rw [if_neg heq, if_neg (Ne.symm heq)]
        simp
    · rw [hsession]
      exact Nat.lt_succ_self _
    · intro k ref hkept hrequest
      rw [← hfirst, replaceId]
      by_cases heq : k = z.1
      · rw [if_pos heq]
        exact UInt64.le_refl _
      · rw [if_neg heq]
        obtain hreset | rfl := hs.isReset_or hkept hrequest
        · exact UInt64.not_lt.mp (hbelow _ (mem_requestsToReset_of_kept hkept)
            (heq ∘ (hsame hkept).mp) hreset)
        · exact UInt64.zero_le

theorem OneAbove.separates (hone : s.OneAbove clock s.requestsToReset) (hs : s.Apart)
    (hclock : s.Advances clock) : Separates clock s (s.resetSession clock) := by
  have hstart := resetStart clock s
  have honce := resetAll_once hstart rfl hclock hs.nodup_requests hone
  have hfrom := hstart.toResetFrom.resetAll clock s.requestsToReset
  rw [resetSession_eq]
  generalize resetAll clock s.requestsToReset _ = x at *
  obtain ⟨f, hrenames, hother, hf, i, hcalls, hle⟩ := honce.exists_resetsTo hs hclock
  refine ⟨hrenames.apart hs, ⟨f, fun m holder hm => (hrenames.holds _ holder).mpr ⟨m, hm, rfl⟩,
    hother, fun m container hm hcontainer => ?_⟩, hrenames.toSend, ?_, ?_⟩
  · rw [← hf]
    exact finishReset_container hfrom hcontainer ((hrenames.holds (f m) (.sent container)).mpr
      ⟨m, hm, rfl⟩)
  · intro m request after hafter hkept
    refine ⟨?_, hrenames.keptUnder hkept⟩
    obtain ⟨msgId, hsame⟩ := hfrom.same request
    rw [(finishReset_requests x request).2, hsame]
    exact hafter
  · intro m request hm hrequest
    obtain ⟨k, hk, rfl⟩ := (hrenames.holds m (.sent request)).mp hm
    exact ⟨s.msgIdCalls + i, by omega, (finishReset_rest x).2.1 ▸ hcalls,
      hle k request (.sent hk) hrequest⟩


/-- A reset keeps all requests under ids of their own exactly when no request above the first
unused id comes behind one that gets it. -/
theorem resetSession_separates_iff (hs : s.Apart) (hclock : s.Advances clock) :
    Separates clock s (s.resetSession clock) ↔ s.OneAbove clock s.requestsToReset :=
  ⟨fun h => h.oneAbove hs hclock, fun h => h.separates hs hclock⟩

/-- Two requests that were sent. -/
def twoSent (msgId msgId' : MsgId) : SessionData where
  requests := fun ref =>
    { msgId := if ref = 0 then msgId else msgId'
      seqNo := 1
      messageLength := 4
      body := [mtpc_ping.toInt32]
      msDate := 1
      requestId := if ref = 0 then 1 else 2 }
  nextRef := 2
  haveSent := ((∅ : Std.TreeMap MsgId RequestRef).insert msgId 0).insert msgId' 1

theorem twoSent_apart (hne : msgId ≠ old) : (twoSent msgId old).Apart where
  one := by
    intro m holder holder' hm hm'
    cases holder <;> cases holder' <;> simp [Holds, twoSent] at hm hm' ⊢
    split_ifs at hm hm' <;> simp_all
  sent := by
    intro m request hm
    simp only [twoSent, insert_getElem?] at hm ⊢
    split_ifs at hm with h h'
    · obtain rfl := Option.some.inj hm
      exact h
    · obtain rfl := Option.some.inj hm
      exact h'
    · simp at hm
  lost := by
    intro m requestId request hm
    simp [twoSent] at hm

/-- The second request takes the place of the first one. -/
theorem resetSession_drops :
    let clock := fun i => UInt64.ofNat (4 * i + 4)
    (twoSent 8 12).Apart ∧ (twoSent 8 12).Advances clock ∧
      ¬ Separates clock (twoSent 8 12) ((twoSent 8 12).resetSession clock) := by
  refine ⟨twoSent_apart (by decide), by decide, fun h => ?_⟩
  obtain ⟨f, hholds, -, -⟩ := h.kept
  have hsent : (twoSent 8 12).haveSent[(8 : MsgId)]? = some 0 := by decide
  have hfirst := hholds 8 (.sent 0) hsent
  have hmem := mem_values.mpr ⟨f 8, hfirst⟩
  have hvalues : ((twoSent 8 12).resetSession fun i => UInt64.ofNat (4 * i + 4)).haveSent.values =
      [1] := by decide
  rw [hvalues] at hmem
  exact absurd hmem (by decide)

theorem resetSession_separates_iff_twoSent :
    Separates (fun i => UInt64.ofNat (4 * i + 8)) (twoSent 4 12)
      ((twoSent 4 12).resetSession fun i => UInt64.ofNat (4 * i + 8)) :=
  (resetSession_separates_iff (twoSent_apart (by decide)) (by decide)).mpr
    (by decide)

end SessionData

end Bettergram.Mtproto
