import Bettergram.Storage.FileDownloadRequests
import Mathlib.Logic.Relation

/-! # Work on a file loader

What a handler does is made of a few kinds of work on its loader. The offsets of
requests that were finished and are not dealt with yet wait in a list meanwhile;
when the handler returns nothing waits. No handler fails an assertion, and each
leaves the loader sound and the shared numbers balanced.
-/

namespace Bettergram.Storage.FileDownload

open Foundation

/-- The loader without a request of the table. -/
def Loader.without (l : Loader) (requestId : ℕ) : Loader :=
  { l with sentRequests := l.sentRequests.filter fun other => other.1 ≠ requestId }

/-- The loader with a part taken in. -/
def fedLoader (l : Loader) (offset : ℕ) (buffer : List UInt8) : Loader :=
  if buffer ≠ [] ∧ l.fileIsOpen = true then
    { l with
      file := overwrite (Turn.resized l.file offset) offset buffer
      lastComplete := l.lastComplete || buffer.isEmpty || buffer.length % 1024 ≠ 0 }
  else
    { l with
      data := if buffer ≠ [] then Turn.feedData l.data offset buffer else l.data
      lastComplete := l.lastComplete || buffer.isEmpty || buffer.length % 1024 ≠ 0 }

/-- Nothing is left to come. -/
def Complete (l : Loader) : Prop :=
  l.sentRequests = [] ∧ l.cdnUncheckedParts = [] ∧
    (l.lastComplete = true ∨ (l.size ≠ 0 ∧ l.size ≤ l.nextRequestOffset))

/-- The loader that finishes with what it has. -/
def finishedLoader (l : Loader) : Loader :=
  { l with
    file := if l.hasFilename = true ∧ l.toCache = .toCacheAsWell then l.data else l.file
    finished := true
    fileIsOpen := false
    inQueue := false }

/-- A loader that was cancelled. -/
structure Cancelled (l l' : Loader) : Prop where
  finished : l'.finished = true
  cancelled : l'.cancelled = true
  sent : l'.sentRequests = []
  flight : l'.flight = []
  refreshes : l'.refreshes = l.refreshes
  accepted : l'.accepted = l.accepted
  cdnFileHashes : l'.cdnFileHashes = l.cdnFileHashes
  cdnUncheckedParts : l'.cdnUncheckedParts = l.cdnUncheckedParts

/-- What the answers of the data center may say: which bytes are at an offset, which hash
they have, and which size the file has. What a CDN says counts only with such a hash. -/
structure Trust (sha256 : List UInt8 → List UInt8) where
  part : ℕ → List UInt8 → Prop
  hash : ℕ → List UInt8 → Prop
  size : ℕ → Prop
  checked : ∀ offset buffer, hash offset (sha256 buffer) → part offset buffer

variable {sha256 : List UInt8 → List UInt8} (trust : Trust sha256)

/-- The kinds of work on a loader. -/
inductive Work : Loader × List ℕ → Loader × List ℕ → Prop
  | frame {l : Loader} {p : List ℕ} (flight : List Flight) (refreshes : List Refresh)
      (fileReference : List UInt8) (paused : Bool) :
      Work (l, p) ({ l with flight, refreshes, fileReference, paused }, p)
  | perm {l : Loader} {p p' : List ℕ} (h : p.Perm p') : Work (l, p) (l, p')
  | finish {l : Loader} {p : List ℕ} {entry : ℕ × RequestData} (h : entry ∈ l.sentRequests)
      (honly : ∀ other ∈ l.sentRequests, other.1 = entry.1 → other = entry) :
      Work (l, p) (l.without entry.1, entry.2.offset :: p)
  | finishHashes {l : Loader} {p : List ℕ} (hpos : ∀ entry ∈ l.sentRequests, entry.1 ≠ 0) :
      Work (l, p) ({ l with cdnHashesRequestId := 0 }.without l.cdnHashesRequestId, p)
  | unmark {l : Loader} {p : List ℕ} (hpos : ∀ entry ∈ l.sentRequests, entry.1 ≠ 0) :
      Work (l, p) ({ l with cdnHashesRequestId := 0 }, p)
  | send {l : Loader} {p : List ℕ} {n : ℕ} {data : RequestData} (hnew : n ≠ l.cdnHashesRequestId) :
      Work (l, data.offset :: p) ({ l with sentRequests := l.sentRequests ++ [(n, data)] }, p)
  | sendHashes {l : Loader} {p : List ℕ} {n : ℕ} {data : RequestData}
      (hnew : ∀ entry ∈ l.sentRequests, entry.1 ≠ n)
      (hpart : data.offset ∈ l.cdnUncheckedParts.map Prod.fst) :
      Work (l, p) ({ l with
        sentRequests := l.sentRequests ++ [(n, data)], cdnHashesRequestId := n }, p)
  | load {l : Loader} {p : List ℕ} {n : ℕ} {data : RequestData} (hcan : l.canLoad = true)
      (hqueue : l.inQueue = true) (hnew : n ≠ l.cdnHashesRequestId)
      (hoffset : data.offset = l.nextRequestOffset) :
      Work (l, p) ({ l with
        sentRequests := l.sentRequests ++ [(n, data)]
        nextRequestOffset := l.nextRequestOffset + partSize }, p)
  | cdn {l : Loader} {p : List ℕ} (params : CdnParams) {known : ℕ → Option (List UInt8)}
      (hknown : ∀ offset hash, l.cdnFileHashes offset = some hash → known offset = some hash)
      (htrust : ∀ offset hash, known offset = some hash →
        l.cdnFileHashes offset = some hash ∨ trust.hash offset hash) :
      Work (l, p) ({ l with cdn := params, cdnFileHashes := known }, p)
  | size {l : Loader} {p : List ℕ} {size : ℕ} (hzero : l.size = 0) (htrust : trust.size size) :
      Work (l, p) ({ l with size }, p)
  | accept {l : Loader} {p : List ℕ} {part : ℕ × List UInt8}
      (hhash : l.cdnFileHashes part.1 = some (sha256 part.2)) :
      Work (l, p) ({ l with accepted := l.accepted ++ [part] }, p)
  | feed {l : Loader} {p : List ℕ} {offset : ℕ} {buffer : List UInt8}
      (hfinished : l.finished = false) (htrust : trust.part offset buffer) :
      Work (l, offset :: p) (fedLoader l offset buffer, p)
  | park {l : Loader} {p : List ℕ} {offset : ℕ} (buffer : List UInt8) :
      Work (l, offset :: p)
        ({ l with cdnUncheckedParts := emplace offset buffer l.cdnUncheckedParts }, p)
  | unpark {l : Loader} {p : List ℕ} {offset : ℕ}
      (h : offset ∈ l.cdnUncheckedParts.map Prod.fst) :
      Work (l, p) ({ l with
        cdnUncheckedParts := l.cdnUncheckedParts.filter fun other => other.1 ≠ offset },
        offset :: p)
  | complete {l : Loader} (hfinished : l.finished = false) (h : Complete l) :
      Work (l, []) (finishedLoader l, [])
  | cancel {l l' : Loader} {p p' : List ℕ} (h : Cancelled l l') : Work (l, p) (l', p')
  | unqueue {l : Loader} {p : List ℕ} : Work (l, p) ({ l with inQueue := false }, p)
  | enqueue {l : Loader} {p : List ℕ} (hfinished : l.finished = false)
      (hopen : l.hasFilename = true → l.toCache = .toFileOnly → l.fileIsOpen = true) :
      Work (l, p) ({ l with inQueue := true }, p)
  | openFile {l : Loader} {p : List ℕ} (hfinished : l.finished = false)
      (hname : l.hasFilename = true) (honly : l.toCache = .toFileOnly)
      (hclosed : l.fileIsOpen = false) :
      Work (l, p) ({ l with fileIsOpen := true, file := [] }, p)

abbrev Works : Loader × List ℕ → Loader × List ℕ → Prop :=
  Relation.ReflTransGen (Work trust)

namespace Turn

/-- What an operation leaves: the numbers in step and the loader sound. -/
structure Kept (t t' : Turn) : Prop where
  balanced : Balanced t t'
  sound : Sound t'.loader t'.shared.nextId

theorem Kept.pos {t t' : Turn} (h : Kept t t') (hpos : 0 < t.shared.nextId) :
    0 < t'.shared.nextId := hpos.trans_le h.balanced.nextId

/-- What an operation does: work on the loader that keeps it sound. -/
structure Does (t : Turn) (p : List ℕ) (t' : Turn) (p' : List ℕ) : Prop where
  kept : Kept t t'
  works : Works trust (t.loader, p) (t'.loader, p')

variable {trust}

theorem Does.trans {t t' t'' : Turn} {p p' p'' : List ℕ} (h : Does trust t p t' p')
    (h' : Does trust t' p' t'' p'') : Does trust t p t'' p'' :=
  ⟨⟨h.kept.balanced.trans h'.kept.balanced, h'.kept.sound⟩, h.works.trans h'.works⟩

theorem Does.pos {t t' : Turn} {p p' : List ℕ} (h : Does trust t p t' p')
    (hpos : 0 < t.shared.nextId) : 0 < t'.shared.nextId := h.kept.pos hpos

/-- Work that leaves the table and the shared numbers alone. -/
theorem Does.of_work {t t' : Turn} {p p' : List ℕ} (hshared : t'.shared = t.shared)
    (hsent : t'.loader.sentRequests = t.loader.sentRequests)
    (hsound : Sound t'.loader t.shared.nextId)
    (hwork : Works trust (t.loader, p) (t'.loader, p')) : Does trust t p t' p' where
  kept := by
    constructor
    · apply Balanced.of_eq hsent <;> rw [hshared]
    · rw [hshared]
      exact hsound
  works := hwork

variable (trust)

theorem cancelRequests_spec {t : Turn}
    (hnodup : (t.loader.sentRequests.map Prod.fst).Nodup)
    (hflight : ∀ f ∈ t.loader.flight, f.id ∈ t.loader.sentRequests.map Prod.fst) :
    ∃ t', t.cancelRequests = some (t', t.loader.sentRequests.map fun entry => entry.2.offset) ∧
      t'.loader = { t.loader with sentRequests := [], flight := [] } ∧
      t'.shared.nextId = t.shared.nextId ∧ Balanced t t' := by
  obtain ⟨t', hall, hloader, hid, -, hbalanced⟩ := finishAll_spec le_rfl hnodup
  refine ⟨t', hall, ?_, hid, hbalanced⟩
  have hnone : (t.loader.flight.filter fun f =>
      f.id ∉ t.loader.sentRequests.map Prod.fst) = [] := by
    rw [List.filter_eq_nil_iff]
    intro f hf
    simpa using hflight f hf
  rw [hloader, hnone]

theorem Sound.emptied {l : Loader} {n : ℕ} (h : Sound l n) (l' : Loader)
    (hsent : l'.sentRequests = []) (hflight : l'.flight = [])
    (hrefreshes : l'.refreshes = l.refreshes)
    (hmarker : l'.cdnHashesRequestId = l.cdnHashesRequestId)
    (hcdn : l'.cdn.dcId ≠ 0 →
      l'.cdn.encryptionKey.length = kKeySize ∧ l'.cdn.encryptionIV.length = kIvecSize) :
    Sound l' n where
  sent_lt := by simp [hsent]
  sent_nodup := by simp [hsent]
  flight_sent := by simp [hflight]
  refresh_lt := by rw [hrefreshes]; exact h.refresh_lt
  marker_lt := by rw [hmarker]; exact h.marker_lt
  refresh_flight := by simp [hflight]
  finished_sent _ := hsent
  hashes := by simp [hflight]
  kinds := by simp [hflight]
  cdnValid := hcdn

theorem cancel_spec {t : Turn} (h : Sound t.loader t.shared.nextId) :
    ∃ t', t.cancel = some t' ∧ Kept t t' ∧ Cancelled t.loader t'.loader := by
  obtain ⟨t₁, hall, hloader, hid, hbalanced⟩ := cancelRequests_spec h.sent_nodup h.flight_sent
  refine ⟨_, by rw [cancel, hall, Option.map_some], ⟨?_, ?_⟩, ?_⟩
  · exact hbalanced.trans (Balanced.of_eq rfl rfl rfl rfl)
  · refine h.mono hid.ge |>.emptied _ ?_ ?_ ?_ ?_ ?_ <;> dsimp only <;> rw [hloader]
    exact h.cdnValid
  · constructor <;> dsimp only <;> rw [hloader]

theorem cancel_does {t : Turn} (h : Sound t.loader t.shared.nextId) (p p' : List ℕ) :
    ∃ t', t.cancel = some t' ∧ Does trust t p t' p' ∧ t'.loader.finished = true := by
  obtain ⟨t', hcancel, hkept, hcancelled⟩ := cancel_spec h
  exact ⟨t', hcancel, ⟨hkept, .single (.cancel hcancelled)⟩, hcancelled.finished⟩

/-! ### Several requests -/

theorem eq_of_fst_eq {entries : List (ℕ × RequestData)} (hnodup : (entries.map Prod.fst).Nodup)
    {entry other : ℕ × RequestData} (hentry : entry ∈ entries) (hother : other ∈ entries)
    (h : other.1 = entry.1) : other = entry :=
  List.inj_on_of_nodup_map hnodup hother hentry h

/-- A request of the table of which no answer comes any more is finished. -/
theorem finish_does {t : Turn} {requestId : ℕ} (p : List ℕ)
    (hsound : Sound t.loader t.shared.nextId)
    (hsent : requestId ∈ t.loader.sentRequests.map Prod.fst)
    (hgone : ∀ f ∈ t.loader.flight, f.id ≠ requestId) :
    ∃ t' data, t.finishSentRequestGetOffset requestId = some (t', data.offset) ∧
      (requestId, data) ∈ t.loader.sentRequests ∧ t'.loader = t.loader.without requestId ∧
      Does trust t p t' (data.offset :: p) := by
  obtain ⟨t', data, hfinish, hin, hloader, hid, -, hbalanced⟩ :=
    finish_spec hsound.sent_nodup hsent
  refine ⟨t', data, hfinish, hin, hloader, ⟨hbalanced, ?_⟩, ?_⟩
  · rw [hloader, hid]
    exact hsound.finish hgone
  · rw [hloader]
    exact .single (.finish hin fun other hother h => eq_of_fst_eq hsound.sent_nodup hin hother h)

theorem works_finishAll {l : Loader} (p : List ℕ) (hnodup : (l.sentRequests.map Prod.fst).Nodup) :
    Works trust (l, p) ({ l with sentRequests := [] },
      (l.sentRequests.map fun entry => entry.2.offset).reverse ++ p) := by
  obtain ⟨sent, hsent⟩ : ∃ sent, l.sentRequests = sent := ⟨_, rfl⟩
  induction sent generalizing l p with
  | nil =>
    have hsame : ({ l with sentRequests := [] } : Loader) = l := by
      cases l
      cases hsent
      rfl
    rw [hsent, hsame]
    exact .refl
  | cons first rest ih =>
    have hfirst : first ∈ l.sentRequests := by simp [hsent]
    have hnodup' := hnodup
    rw [hsent, List.map_cons, List.nodup_cons] at hnodup'
    have hrest : (l.without first.1).sentRequests = rest := by
      rw [Loader.without]
      dsimp only
      rw [hsent, List.filter_cons_of_neg (by simp), List.filter_eq_self]
      intro other hother
      rw [decide_eq_true_eq]
      exact fun heq => hnodup'.1 (heq ▸ List.mem_map_of_mem hother)
    have hfinish : Works trust (l, p) (l.without first.1, first.2.offset :: p) :=
      .single (.finish hfirst fun other hother h => eq_of_fst_eq hnodup hfirst hother h)
    have hall := ih (l := l.without first.1) (first.2.offset :: p) (by rw [hrest]; exact hnodup'.2)
      hrest
    rw [hrest] at hall
    rw [hsent, List.map_cons, List.reverse_cons, List.append_assoc, List.singleton_append]
    exact hfinish.trans hall

theorem works_send {l : Loader} {n : ℕ} {data : RequestData} (flight : List Flight) (p : List ℕ)
    (hnew : n ≠ l.cdnHashesRequestId) : Works trust (l, data.offset :: p)
      ({ l with flight, sentRequests := l.sentRequests ++ [(n, data)] }, p) :=
  (Relation.ReflTransGen.single
    (.frame flight l.refreshes l.fileReference l.paused)).tail (.send (l := { l with flight }) hnew)

theorem works_sendHashes {l : Loader} {n : ℕ} (flight : List Flight) (p : List ℕ)
    (data : RequestData) (hnew : ∀ entry ∈ l.sentRequests, entry.1 ≠ n)
    (hpart : data.offset ∈ l.cdnUncheckedParts.map Prod.fst) :
    Works trust (l, p) ({ l with
      flight, sentRequests := l.sentRequests ++ [(n, data)], cdnHashesRequestId := n }, p) :=
  (Relation.ReflTransGen.single (.frame flight l.refreshes l.fileReference l.paused)).tail
    (.sendHashes (l := { l with flight }) hnew hpart)

/-- A request that is not for hashes is sent for an offset that waits. -/
theorem sendAndPlace_does {t : Turn} {kind : Kind} (data : RequestData) (p : List ℕ)
    (hfinished : t.loader.finished = false) (hsound : Sound t.loader t.shared.nextId)
    (hpos : 0 < t.shared.nextId) (hkind : kind ≠ .cdnFileHashes)
    (hcdn : kind.cdn = true ↔ t.loader.cdn.dcId ≠ 0) :
    ∃ t', t.sendAndPlace kind data = some t' ∧ Does trust t (data.offset :: p) t' p ∧
      t'.loader = { t.loader with
        flight := t.loader.flight ++ [⟨t.shared.nextId, kind, t.loader.cdn.token⟩]
        sentRequests := t.loader.sentRequests ++ [(t.shared.nextId, data)] } := by
  obtain ⟨t', hsend, hbalanced, hsound', hloader⟩ :=
    sendAndPlace_sound data hfinished hsound hpos hkind hcdn
  refine ⟨t', hsend, ⟨⟨hbalanced, hsound'⟩, ?_⟩, hloader⟩
  rw [hloader]
  exact works_send trust _ p hsound.marker_lt.ne'

theorem makeRequest_does {t : Turn} (offset : ℕ) (p : List ℕ)
    (hfinished : t.loader.finished = false) (hsound : Sound t.loader t.shared.nextId)
    (hpos : 0 < t.shared.nextId) :
    ∃ t', t.makeRequest offset = some t' ∧ Does trust t (offset :: p) t' p ∧
      t'.loader = { t.loader with
        flight := t.loader.flight ++ [⟨t.shared.nextId, t.loader.requestKind, t.loader.cdn.token⟩]
        sentRequests := t.loader.sentRequests ++
          [(t.shared.nextId, t.prepareRequest offset)] } := by
  rw [makeRequest_eq offset hfinished]
  exact sendAndPlace_does trust (t.prepareRequest offset) p hfinished hsound hpos (requestKind_ne _)
    (requestKind_cdn _)

theorem makeRequests_does {t : Turn} (offsets p : List ℕ) (hfinished : t.loader.finished = false)
    (hsound : Sound t.loader t.shared.nextId) (hpos : 0 < t.shared.nextId) :
    ∃ t', t.makeRequests offsets = some t' ∧ Does trust t (offsets ++ p) t' p ∧
      t'.loader.finished = false := by
  induction offsets generalizing t with
  | nil => exact ⟨t, rfl, ⟨⟨Balanced.refl t, hsound⟩, .refl⟩, hfinished⟩
  | cons offset offsets ih =>
    obtain ⟨t₁, hmake, hdoes, hloader⟩ :=
      makeRequest_does trust offset (offsets ++ p) hfinished hsound
        hpos
    obtain ⟨t₂, hrest, hdoes₂, hfinished₂⟩ := ih (by rw [hloader]; exact hfinished)
      hdoes.kept.sound (hdoes.pos hpos)
    refine ⟨t₂, ?_, hdoes.trans hdoes₂, hfinished₂⟩
    rw [makeRequests, List.foldlM_cons, hmake]
    exact hrest

theorem addCdnHashes_new (t : Turn) (hashes : List (ℕ × List UInt8)) (offset : ℕ)
    (hash : List UInt8) (h : (t.addCdnHashes hashes).loader.cdnFileHashes offset = some hash) :
    t.loader.cdnFileHashes offset = some hash ∨ (offset, hash) ∈ hashes := by
  rw [addCdnHashes] at h
  dsimp only at h
  generalize t.loader.cdnFileHashes = known at h ⊢
  induction hashes generalizing known with
  | nil => exact .inl h
  | cons first rest ih =>
    rw [List.foldl_cons] at h
    rcases ih _ h with hknown | hrest
    · split at hknown
      · exact .inl hknown
      · by_cases heq : offset = first.1
        · rw [heq, Function.update_self] at hknown
          rw [heq, ← Option.some.inj hknown]
          exact .inr List.mem_cons_self
        · rw [Function.update_of_ne heq] at hknown
          exact .inl hknown
    · exact .inr (List.mem_cons_of_mem _ hrest)

theorem addCdnHashes_known (t : Turn) (hashes : List (ℕ × List UInt8)) (offset : ℕ)
    (hash : List UInt8) (h : t.loader.cdnFileHashes offset = some hash) :
    (t.addCdnHashes hashes).loader.cdnFileHashes offset = some hash := by
  rw [addCdnHashes]
  dsimp only
  generalize t.loader.cdnFileHashes = known at h
  induction hashes generalizing known with
  | nil => exact h
  | cons first rest ih =>
    rw [List.foldl_cons]
    apply ih
    split
    · exact h
    · rename_i hnone
      have hne : offset ≠ first.1 := by
        intro heq
        rw [← heq, h] at hnone
        exact hnone rfl
      rw [Function.update_of_ne hne]
      exact h

/-- The parameters are set and, when they are others, every request is sent again as
one for a part; then comes the request for the offset at hand. -/
theorem changeCDNParams_does {t : Turn} (offset : ℕ) (params : CdnParams)
    {hashes : List (ℕ × List UInt8)} (p : List ℕ)
    (hhashes : ∀ hash ∈ hashes, trust.hash hash.1 hash.2) (hfinished : t.loader.finished = false)
    (hsound : Sound t.loader t.shared.nextId) (hpos : 0 < t.shared.nextId) :
    ∃ t' next, t.changeCDNParams offset params hashes = some (t', next) ∧
      Does trust t (offset :: p) t' p ∧ next ≠ .notifyThenHashes := by
  unfold changeCDNParams
  split
  · obtain ⟨t', hcancel, hdoes, -⟩ := cancel_does trust hsound
      (offset :: p) p
    exact ⟨t', .notify, by rw [hcancel, Option.map_some], hdoes, by decide⟩
  rename_i hvalid
  have hparams : params.dcId ≠ 0 →
      params.encryptionKey.length = kKeySize ∧ params.encryptionIV.length = kIvecSize := by
    intro hne
    by_contra hbad
    exact hvalid ⟨hne, not_and_or.mp hbad⟩
  dsimp only
  generalize hset : ({ t with loader := { t.loader with cdn := params } } : Turn).addCdnHashes
    hashes = t₁
  have hloader₁ : t₁.loader = { t.loader with
      cdn := params, cdnFileHashes := (t.addCdnHashes hashes).loader.cdnFileHashes } := by
    rw [← hset]
    rfl
  have hbalanced₁ : Balanced t t₁ := by
    rw [← hset]
    exact Balanced.of_eq rfl rfl rfl rfl
  have hid₁ : t₁.shared.nextId = t.shared.nextId := by rw [← hset]; rfl
  have hpos₁ : 0 < t₁.shared.nextId := by rw [hid₁]; exact hpos
  have hworks₁ : ∀ q, Works trust (t.loader, q) (t₁.loader, q) := by
    intro q
    rw [hloader₁]
    exact .single (.cdn params (addCdnHashes_known t hashes) fun offset hash h =>
      (addCdnHashes_new t hashes offset hash h).imp_right (hhashes (offset, hash)))
  have hfinished₁ : t₁.loader.finished = false := by rw [hloader₁]; exact hfinished
  -- Before the last request: all requests are sent again, or the loader is as it was.
  obtain ⟨t₂, hresent, hdoes₂, hfinished₂⟩ : ∃ t₂, (if t.loader.cdn ≠ params ∧
        t₁.loader.sentRequests ≠ [] then
          t₁.cancelRequests.bind fun cleared => cleared.1.makeRequests cleared.2
        else some t₁) = some t₂ ∧ Does trust t (offset :: p) t₂ (offset :: p) ∧
      t₂.loader.finished = false := by
    by_cases hresend : t.loader.cdn ≠ params ∧ t₁.loader.sentRequests ≠ []
    · rw [if_pos hresend]
      have hnodup₁ : (t₁.loader.sentRequests.map Prod.fst).Nodup := by
        rw [hloader₁]
        exact hsound.sent_nodup
      obtain ⟨t₂, hall, hloader₂, hid₂, hbalanced₂⟩ := cancelRequests_spec hnodup₁
        (by rw [hloader₁]; exact hsound.flight_sent)
      have hsound₂ : Sound t₂.loader t₂.shared.nextId := by
        refine (hsound.mono (hid₂.trans hid₁).ge).emptied _ ?_ ?_ ?_ ?_ ?_ <;>
          rw [hloader₂, hloader₁]
        exact hparams
      have hworks₂ : Works trust (t₁.loader, offset :: p) (t₂.loader,
          (t₁.loader.sentRequests.map fun entry => entry.2.offset) ++ offset :: p) := by
        rw [hloader₂]
        exact ((works_finishAll _ _ hnodup₁).tail (.frame [] t₁.loader.refreshes
          t₁.loader.fileReference t₁.loader.paused)).tail
          (.perm (List.Perm.append_right _ (List.reverse_perm _)))
      have hcleared : Does trust t (offset :: p) t₂
          ((t₁.loader.sentRequests.map fun entry => entry.2.offset) ++ offset :: p) :=
        ⟨⟨hbalanced₁.trans hbalanced₂, hsound₂⟩, (hworks₁ _).trans hworks₂⟩
      obtain ⟨t₃, hmake, hdoes₃, hfinished₃⟩ := makeRequests_does trust
        (t₁.loader.sentRequests.map fun entry => entry.2.offset) (offset :: p)
        (by rw [hloader₂]; exact hfinished₁) hsound₂ (hcleared.pos hpos)
      refine ⟨t₃, ?_, hcleared.trans hdoes₃, hfinished₃⟩
      rw [hall, Option.bind_some]
      exact hmake
    · rw [if_neg hresend]
      refine ⟨t₁, rfl, ⟨⟨hbalanced₁, ?_⟩, hworks₁ _⟩, hfinished₁⟩
      by_cases hsame : t.loader.cdn = params
      · rw [hid₁, hloader₁, ← hsame]
        exact { hsound with }
      · have hnil : t₁.loader.sentRequests = [] := by
          by_contra hne
          exact hresend ⟨hsame, hne⟩
        have hsent : t.loader.sentRequests = [] := by rw [hloader₁] at hnil; exact hnil
        refine (hsound.mono hid₁.ge).emptied _ hnil ?_ ?_ ?_ ?_ <;> rw [hloader₁]
        · exact hsound.flight_nil hsent
        · exact hparams
  obtain ⟨t₃, hlast, hdoes₃, -⟩ := makeRequest_does trust offset p
    hfinished₂ hdoes₂.kept.sound (hdoes₂.pos hpos)
  exact ⟨t₃, .quiet, by rw [hresent, Option.bind_some, hlast, Option.map_some],
    hdoes₂.trans hdoes₃, by decide⟩

/-! ### Hashes and parts -/

/-- A request for hashes is in flight already, nothing waits for one, or it is sent. -/
theorem requestMoreCdnFileHashes_does {t : Turn} (p : List ℕ)
    (hfinished : t.loader.finished = false) (hsound : Sound t.loader t.shared.nextId)
    (hpos : 0 < t.shared.nextId) (hcdn : t.loader.cdn.dcId ≠ 0) :
    ∃ t', t.requestMoreCdnFileHashes = some t' ∧ Does trust t p t' p := by
  rw [requestMoreCdnFileHashes, if_neg (by simp [hfinished])]
  by_cases hmark : t.loader.cdnHashesRequestId ≠ 0
  · rw [if_pos hmark]
    exact ⟨t, rfl, ⟨Balanced.refl t, hsound⟩, .refl⟩
  rw [if_neg hmark]
  cases hparts : t.loader.cdnUncheckedParts with
  | nil => exact ⟨t, rfl, ⟨Balanced.refl t, hsound⟩, .refl⟩
  | cons first rest =>
    dsimp only
    obtain ⟨t₁, hsend, hloader, hid, -, hbalanced⟩ :=
      sendAndPlace_spec .cdnFileHashes ⟨t.loader.dcId, 0, first.1⟩ hfinished
    rw [hsend, Option.map_some]
    refine ⟨_, rfl, ⟨hbalanced.trans (Balanced.of_eq rfl rfl rfl rfl), ?_⟩, ?_⟩
    · dsimp only
      rw [hid, hloader]
      exact hsound.send _ hpos hfinished (iff_of_true rfl hcdn) (.inl ⟨rfl, rfl, not_not.mp hmark⟩)
    · dsimp only
      rw [hloader]
      have hnew : ∀ entry ∈ t.loader.sentRequests, entry.1 ≠ t.shared.nextId :=
        fun entry hentry => (hsound.sent_lt entry hentry).2.ne
      have hpart : first.1 ∈ t.loader.cdnUncheckedParts.map Prod.fst := by simp [hparts]
      exact works_sendHashes trust _ p ⟨t.loader.dcId, 0, first.1⟩ hnew hpart

/-- The table, the flights and what goes with them are the same in both loaders. -/
structure SameRequests (l l' : Loader) : Prop where
  sent : l'.sentRequests = l.sentRequests
  flight : l'.flight = l.flight
  refreshes : l'.refreshes = l.refreshes
  marker : l'.cdnHashesRequestId = l.cdnHashesRequestId
  cdn : l'.cdn = l.cdn

theorem SameRequests.refl (l : Loader) : SameRequests l l := ⟨rfl, rfl, rfl, rfl, rfl⟩

theorem Sound.of_same {l l' : Loader} {n : ℕ} (h : Sound l n) (hsame : SameRequests l l')
    (hfinished : l'.finished = true → l'.sentRequests = []) : Sound l' n where
  sent_lt := by rw [hsame.sent]; exact h.sent_lt
  sent_nodup := by rw [hsame.sent]; exact h.sent_nodup
  flight_sent := by rw [hsame.sent, hsame.flight]; exact h.flight_sent
  refresh_lt := by rw [hsame.refreshes]; exact h.refresh_lt
  marker_lt := by rw [hsame.marker]; exact h.marker_lt
  refresh_flight := by rw [hsame.refreshes, hsame.flight]; exact h.refresh_flight
  finished_sent := hfinished
  hashes := by rw [hsame.flight, hsame.marker]; exact h.hashes
  kinds := by rw [hsame.flight, hsame.cdn]; exact h.kinds
  cdnValid := by rw [hsame.cdn]; exact h.cdnValid

theorem fedLoader_same (l : Loader) (offset : ℕ) (buffer : List UInt8) :
    SameRequests l (fedLoader l offset buffer) := by
  unfold fedLoader
  split <;> exact ⟨rfl, rfl, rfl, rfl, rfl⟩

@[simp] theorem fedLoader_finished (l : Loader) (offset : ℕ) (buffer : List UInt8) :
    (fedLoader l offset buffer).finished = l.finished := by
  unfold fedLoader
  split <;> rfl

theorem touchFile_spec (disk : ℕ → Bool) (t : Turn) :
    (touchFile disk t).1.loader = t.loader ∧ Balanced t (touchFile disk t).1 ∧
      (touchFile disk t).1.shared.nextId = t.shared.nextId :=
  ⟨rfl, Balanced.of_eq rfl rfl rfl rfl, rfl⟩

/-- How the taking in of a part ends. -/
inductive Fed (l : Loader) (offset : ℕ) (buffer : List UInt8) : Loader → Bool → Prop
  | failed {l' : Loader} (h : Cancelled l l') : Fed l offset buffer l' false
  | more (h : ¬ Complete (fedLoader l offset buffer)) :
      Fed l offset buffer (fedLoader l offset buffer) true
  | finished (h : Complete (fedLoader l offset buffer)) :
      Fed l offset buffer (finishedLoader (fedLoader l offset buffer)) true

theorem finishIfComplete_spec {disk : ℕ → Bool} {t : Turn} (hsound : Sound t.loader t.shared.nextId) :
    ∃ t' ok, finishIfComplete disk t = some (t', ok) ∧ Kept t t' ∧
      ((ok = false ∧ Cancelled t.loader t'.loader) ∨
        (ok = true ∧ ¬ Complete t.loader ∧ t'.loader = t.loader) ∨
        (ok = true ∧ Complete t.loader ∧ t'.loader = finishedLoader t.loader)) := by
  unfold finishIfComplete
  dsimp only
  by_cases hcomplete : Complete t.loader
  swap
  · rw [if_neg (show ¬(_ ∧ _ ∧ _) from hcomplete)]
    exact ⟨t, true, rfl, ⟨Balanced.refl t, hsound⟩, .inr (.inl ⟨rfl, hcomplete, rfl⟩)⟩
  rw [if_pos (show _ ∧ _ ∧ _ from hcomplete)]
  by_cases hstore : t.loader.hasFilename = true ∧ t.loader.toCache = .toCacheAsWell
  swap
  · rw [if_neg hstore]
    refine ⟨_, true, rfl, ⟨Balanced.of_eq rfl rfl rfl rfl, ?_⟩, .inr (.inr ⟨rfl, hcomplete, ?_⟩)⟩
    · exact hsound.of_same ⟨rfl, rfl, rfl, rfl, rfl⟩ fun _ => hcomplete.1
    · rw [finishedLoader, if_neg hstore]
  rw [if_pos hstore]
  generalize hopened : (if t.loader.fileIsOpen = true then (t, true) else touchFile disk t) = opened
  obtain ⟨hloader₁, hbalanced₁, hid₁⟩ : opened.1.loader = t.loader ∧ Balanced t opened.1 ∧
      opened.1.shared.nextId = t.shared.nextId := by
    rw [← hopened]
    split
    · exact ⟨rfl, Balanced.refl t, rfl⟩
    · exact touchFile_spec disk t
  obtain ⟨hloader₂, hbalanced₂, hid₂⟩ := touchFile_spec disk opened.1
  have hsound₁ : Sound opened.1.loader opened.1.shared.nextId := by
    rw [hloader₁, hid₁]
    exact hsound
  have hsound₂ : Sound (touchFile disk opened.1).1.loader (touchFile disk opened.1).1.shared.nextId := by
    rw [hloader₂, hid₂]
    exact hsound₁
  split
  · obtain ⟨t', hcancel, hkept, hcancelled⟩ := cancel_spec hsound₁
    rw [hloader₁] at hcancelled
    exact ⟨t', false, by rw [hcancel, Option.map_some],
      ⟨hbalanced₁.trans hkept.balanced, hkept.sound⟩, .inl ⟨rfl, hcancelled⟩⟩
  split
  · obtain ⟨t', hcancel, hkept, hcancelled⟩ := cancel_spec hsound₂
    rw [hloader₂, hloader₁] at hcancelled
    exact ⟨t', false, by rw [hcancel, Option.map_some],
      ⟨(hbalanced₁.trans hbalanced₂).trans hkept.balanced, hkept.sound⟩, .inl ⟨rfl, hcancelled⟩⟩
  · refine ⟨_, true, rfl, ⟨(hbalanced₁.trans hbalanced₂).trans (Balanced.of_eq rfl rfl rfl rfl), ?_⟩,
      .inr (.inr ⟨rfl, hcomplete, ?_⟩)⟩
    · refine hsound₂.of_same ⟨rfl, rfl, rfl, rfl, rfl⟩ fun _ => ?_
      dsimp only
      rw [hloader₂, hloader₁]
      exact hcomplete.1
    · dsimp only
      rw [hloader₂, hloader₁, finishedLoader, if_pos hstore]

theorem feedPart_spec (disk : ℕ → Bool) {t : Turn} (offset : ℕ) (buffer : List UInt8)
    (hfinished : t.loader.finished = false) (hsound : Sound t.loader t.shared.nextId) :
    ∃ t' ok, feedPart disk t offset buffer = some (t', ok) ∧ Kept t t' ∧
      Fed t.loader offset buffer t'.loader ok := by
  have hfed : ∀ t₁ : Turn, Balanced t t₁ → t₁.loader = fedLoader t.loader offset buffer →
      ∃ t' ok, finishIfComplete disk t₁ = some (t', ok) ∧ Kept t t' ∧
        Fed t.loader offset buffer t'.loader ok := by
    intro t₁ hbalanced hloader
    have hsame := fedLoader_same t.loader offset buffer
    have hsound₁ : Sound t₁.loader t₁.shared.nextId := by
      rw [hloader]
      refine (hsound.mono hbalanced.nextId).of_same hsame fun h => ?_
      rw [fedLoader_finished, hfinished] at h
      cases h
    obtain ⟨t', ok, hfinish, hkept, hcases⟩ := finishIfComplete_spec hsound₁
    refine ⟨t', ok, hfinish, ⟨hbalanced.trans hkept.balanced, hkept.sound⟩, ?_⟩
    rw [hloader] at hcases
    obtain ⟨rfl, hcancelled⟩ | ⟨rfl, hmore, heq⟩ | ⟨rfl, hcomplete, heq⟩ := hcases
    · refine .failed ⟨hcancelled.finished, hcancelled.cancelled, hcancelled.sent,
        hcancelled.flight, hcancelled.refreshes.trans hsame.refreshes, ?_, ?_, ?_⟩
      · rw [hcancelled.accepted, fedLoader]
        split <;> rfl
      · rw [hcancelled.cdnFileHashes, fedLoader]
        split <;> rfl
      · rw [hcancelled.cdnUncheckedParts, fedLoader]
        split <;> rfl
    · rw [heq]
      exact .more hmore
    · rw [heq]
      exact .finished hcomplete
  unfold feedPart
  rw [if_neg (by simp [hfinished])]
  dsimp only
  split
  · rename_i hopen
    split
    · obtain ⟨hloader₁, hbalanced₁, hid₁⟩ := touchFile_spec disk t
      obtain ⟨t', hcancel, hkept, hcancelled⟩ := cancel_spec (t := (touchFile disk t).1)
        (by rw [hloader₁, hid₁]; exact hsound)
      exact ⟨t', false, by rw [hcancel, Option.map_some],
        ⟨hbalanced₁.trans hkept.balanced, hkept.sound⟩, .failed hcancelled⟩
    · refine hfed _ (Balanced.of_eq rfl rfl rfl rfl) ?_
      rw [fedLoader, if_pos hopen]
      rfl
  · rename_i hopen
    refine hfed _ (Balanced.of_eq rfl rfl rfl rfl) ?_
    rw [fedLoader, if_neg hopen]

theorem Fed.works {l l' : Loader} {offset : ℕ} {buffer : List UInt8} {ok : Bool}
    (h : Fed l offset buffer l' ok) (hfinished : l.finished = false)
    (htrust : trust.part offset buffer) : Works trust (l, [offset]) (l', []) := by
  have hfeed : Works trust (l, [offset]) (fedLoader l offset buffer, []) :=
    .single (.feed hfinished htrust)
  cases h with
  | failed hcancelled => exact .single (.cancel hcancelled)
  | more hmore => exact hfeed
  | finished hcomplete =>
    exact hfeed.tail (.complete ((fedLoader_finished l offset buffer).trans hfinished) hcomplete)

theorem feedPart_does (disk : ℕ → Bool) {t : Turn} (offset : ℕ) (buffer : List UInt8)
    (hfinished : t.loader.finished = false) (hsound : Sound t.loader t.shared.nextId)
    (htrust : trust.part offset buffer) :
    ∃ t' ok, feedPart disk t offset buffer = some (t', ok) ∧
      Does trust t [offset] t' [] ∧ Fed t.loader offset buffer t'.loader ok := by
  obtain ⟨t', ok, hfeed, hkept, hfed⟩ := feedPart_spec disk offset buffer hfinished hsound
  exact ⟨t', ok, hfeed, ⟨hkept, hfed.works trust hfinished htrust⟩, hfed⟩

end Turn

end Bettergram.Storage.FileDownload
