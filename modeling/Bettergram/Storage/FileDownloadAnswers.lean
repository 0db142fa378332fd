import Bettergram.Storage.FileDownloadHandlers

/-! # Answers to a file loader

The handler of each answer does work that ends with nothing waiting, whatever the
answer is: it fails no assertion as long as its request is in the table.
-/

namespace Bettergram.Storage.FileDownload

open Foundation

variable {sha256 : List UInt8 → List UInt8} (trust : Trust sha256)

/-- The parts that wait for a hash are sorted by their offsets, and the hashes are right. -/
structure Parked (l : Loader) : Prop where
  sorted : (l.cdnUncheckedParts.map Prod.fst).Pairwise (· < ·)
  known : ∀ offset hash, l.cdnFileHashes offset = some hash → trust.hash offset hash

namespace Turn

variable (disk : ℕ → Bool) (aesCtr : List UInt8 → List UInt8 → ℕ → List UInt8 → List UInt8)

/-- An answer of the data center says what is so; one of a CDN may bring any bytes. -/
def Answer.Trusted (l : Loader) (requestId : ℕ) : Answer → Prop
  | .file bytes => ∀ data, (requestId, data) ∈ l.sentRequests → trust.part data.offset bytes
  | .webFile size bytes => trust.size size ∧
      ∀ data, (requestId, data) ∈ l.sentRequests → trust.part data.offset bytes
  | .fileCdnRedirect _ hashes => ∀ hash ∈ hashes, trust.hash hash.1 hash.2
  | .fileHashes hashes => ∀ hash ∈ hashes, trust.hash hash.1 hash.2
  | _ => True

/-- A request of which the answer is being handled. -/
structure Answered (t : Turn) (requestId : ℕ) : Prop where
  sound : Sound t.loader t.shared.nextId
  pos : 0 < t.shared.nextId
  sent : requestId ∈ t.loader.sentRequests.map Prod.fst
  gone : ∀ f ∈ t.loader.flight, f.id ≠ requestId

variable {trust} in
theorem Answered.finished {t : Turn} {requestId : ℕ} (h : Answered t requestId) :
    t.loader.finished = false := by
  cases hfinished : t.loader.finished with
  | false => rfl
  | true =>
    have hsent := h.sent
    rw [h.sound.finished_sent hfinished] at hsent
    cases hsent

/-- The answer to a request is handled without a failed assertion. -/
def Handles (t : Turn) (handled : Option (Turn × Next)) : Prop :=
  ∃ t' next, handled = some (t', next) ∧ Does trust t [] t' [] ∧
    (next = .notifyThenHashes → t'.loader.finished = false ∧ t'.loader.cdn.dcId ≠ 0)

variable {t : Turn} {requestId : ℕ}

theorem handles_quiet {t t' : Turn} {handled : Option Turn} (hhandled : handled = some t')
    (hdoes : Does trust t [] t' []) :
    Handles trust t (handled.map fun t => (t, .quiet)) := by
  refine ⟨t', .quiet, by rw [hhandled, Option.map_some], hdoes, ?_⟩
  intro h
  cases h

theorem partLoaded_does {t t₀ : Turn} {offset : ℕ} {buffer : List UInt8}
    (hdoes : Does trust t₀ [] t [offset]) (hfinished : t.loader.finished = false)
    (htrust : trust.part offset buffer) :
    Handles trust t₀ (t.partLoaded disk offset buffer) := by
  obtain ⟨t', ok, hfeed, hdoes', -⟩ :=
    feedPart_does trust disk offset buffer hfinished hdoes.kept.sound htrust
  refine ⟨t', .notify, by rw [partLoaded, hfeed, Option.map_some], hdoes.trans hdoes', ?_⟩
  intro h
  cases h

theorem normalPartLoaded_does (h : Answered t requestId) (bytes : List UInt8)
    (htrust : ∀ data, (requestId, data) ∈ t.loader.sentRequests → trust.part data.offset bytes) :
    Handles trust t (t.normalPartLoaded disk requestId bytes) := by
  obtain ⟨t₁, data, hfinish, hin, hloader, hdoes⟩ :=
    finish_does trust [] h.sound h.sent h.gone
  rw [normalPartLoaded, if_neg (by simp [h.finished]), hfinish, Option.bind_some]
  exact partLoaded_does trust disk hdoes (by rw [hloader]; exact h.finished)
    (htrust data hin)

theorem switchToCDN_does (h : Answered t requestId) (params : CdnParams)
    {hashes : List (ℕ × List UInt8)} (hhashes : ∀ hash ∈ hashes, trust.hash hash.1 hash.2) :
    Handles trust t (t.switchToCDN requestId params hashes) := by
  obtain ⟨t₁, data, hfinish, -, hloader, hdoes⟩ :=
    finish_does trust [] h.sound h.sent h.gone
  obtain ⟨t₂, next, hchange, hdoes₂, hnext⟩ := changeCDNParams_does trust data.offset params
    [] hhashes (by rw [hloader]; exact h.finished) hdoes.kept.sound (hdoes.pos h.pos)
  refine ⟨t₂, next, ?_, hdoes.trans hdoes₂, fun heq => absurd heq hnext⟩
  rw [switchToCDN, if_neg (by simp [h.finished]), hfinish, Option.bind_some]
  exact hchange

theorem cancel_handles {t t₀ : Turn} {p : List ℕ} (hdoes : Does trust t₀ [] t p) :
    Handles trust t₀ (t.cancel.map fun t => (t, .notify)) := by
  obtain ⟨t', hcancel, hdoes', -⟩ := cancel_does trust hdoes.kept.sound p []
  refine ⟨t', .notify, by rw [hcancel, Option.map_some], hdoes.trans hdoes', ?_⟩
  intro h
  cases h

theorem webPartLoaded_does (h : Answered t requestId) (size : ℕ) (bytes : List UInt8)
    (hsize : trust.size size)
    (htrust : ∀ data, (requestId, data) ∈ t.loader.sentRequests → trust.part data.offset bytes) :
    Handles trust t (t.webPartLoaded disk requestId size bytes) := by
  obtain ⟨t₁, data, hfinish, hin, hloader, hdoes⟩ :=
    finish_does trust [] h.sound h.sent h.gone
  have hfinished₁ : t₁.loader.finished = false := by rw [hloader]; exact h.finished
  rw [webPartLoaded, hfinish, Option.bind_some]
  dsimp only
  by_cases hzero : t₁.loader.size = 0
  · rw [if_pos hzero]
    have hsized : Does trust t₁ [data.offset]
        { t₁ with loader := { t₁.loader with size := size } } [data.offset] :=
      .of_work rfl rfl { hdoes.kept.sound with } (.single (.size hzero hsize))
    exact partLoaded_does trust disk (hdoes.trans hsized) hfinished₁ (htrust data hin)
  · rw [if_neg hzero]
    split
    · exact cancel_handles trust hdoes
    · exact partLoaded_does trust disk hdoes hfinished₁ (htrust data hin)

theorem cdnReuploadNeeded_does (h : Answered t requestId) (hcdn : t.loader.cdn.dcId ≠ 0) :
    Handles trust t (t.cdnReuploadNeeded requestId) := by
  obtain ⟨t₁, data, hfinish, -, hloader, hdoes⟩ :=
    finish_does trust [] h.sound h.sent h.gone
  obtain ⟨t₂, hsend, hdoes₂, -⟩ := sendAndPlace_does trust
    ⟨t.loader.dcId, 0, data.offset⟩ [] (by rw [hloader]; exact h.finished) hdoes.kept.sound
    (hdoes.pos h.pos) (by decide)
    (iff_of_true (a := Kind.cdn .reuploadCdnFile = true) rfl (by rw [hloader]; exact hcdn))
  rw [cdnReuploadNeeded, if_neg (by simp [h.finished]), hfinish, Option.bind_some]
  exact handles_quiet trust hsend (hdoes.trans hdoes₂)

theorem checkCdnFileHash_good {l : Loader} {offset : ℕ} {buffer : List UInt8}
    (h : checkCdnFileHash sha256 l offset buffer = .good) :
    l.cdnFileHashes offset = some (sha256 buffer) := by
  rw [checkCdnFileHash] at h
  cases hknown : l.cdnFileHashes offset with
  | none =>
    rw [hknown] at h
    cases h
  | some hash =>
    rw [hknown] at h
    dsimp only at h
    split at h
    · cases h
    · rename_i heq
      rw [not_not.mp heq]

theorem cdnPartLoaded_does (h : Answered t requestId) (hcdn : t.loader.cdn.dcId ≠ 0)
    (hparked : Parked trust t.loader) (bytes : List UInt8) :
    Handles trust t (t.cdnPartLoaded disk sha256 aesCtr requestId bytes) := by
  obtain ⟨t₁, data, hfinish, hin, hloader, hdoes⟩ :=
    finish_does trust [] h.sound h.sent h.gone
  have hfinished₁ : t₁.loader.finished = false := by rw [hloader]; exact h.finished
  have hcdn₁ : t₁.loader.cdn = t.loader.cdn := by rw [hloader]; rfl
  obtain ⟨hkey, hiv⟩ := h.sound.cdnValid hcdn
  rw [← hcdn₁] at hkey hiv hcdn
  rw [cdnPartLoaded, if_neg (by simp [h.finished]), hfinish, Option.bind_some]
  dsimp only
  rw [if_neg (by simp [hkey, hiv])]
  generalize aesCtr t₁.loader.cdn.encryptionKey t₁.loader.cdn.encryptionIV (data.offset / 16) bytes
    = buffer
  cases hcheck : checkCdnFileHash sha256 t₁.loader data.offset buffer with
  | noHash =>
    dsimp only
    obtain ⟨t₂, ht₂⟩ : ∃ t₂ : Turn, { t₁ with loader := { t₁.loader with
        cdnUncheckedParts := emplace data.offset buffer t₁.loader.cdnUncheckedParts } } = t₂ :=
      ⟨_, rfl⟩
    rw [ht₂]
    have hparked : Does trust t₁ [data.offset] t₂ [] := by
      rw [← ht₂]
      exact .of_work rfl rfl { hdoes.kept.sound with } (.single (.park buffer))
    obtain ⟨t₃, hmore, hdoes₃⟩ := requestMoreCdnFileHashes_does trust []
      (by rw [← ht₂]; exact hfinished₁) hparked.kept.sound (hparked.pos (hdoes.pos h.pos))
      (by rw [← ht₂]; exact hcdn)
    exact handles_quiet trust hmore ((hdoes.trans hparked).trans hdoes₃)
  | invalid => exact cancel_handles trust hdoes
  | good =>
    dsimp only
    have hhash := checkCdnFileHash_good hcheck
    have hbytes : trust.part data.offset buffer :=
      trust.checked _ _ (hparked.known _ _ (by rw [hloader] at hhash; exact hhash))
    have haccepted : Does trust t₁ [data.offset] { t₁ with
        loader := { t₁.loader with accepted := t₁.loader.accepted ++ [(data.offset, buffer)] } }
        [data.offset] :=
      .of_work rfl rfl { hdoes.kept.sound with } (.single (.accept hhash))
    exact partLoaded_does trust disk (hdoes.trans haccepted) hfinished₁ hbytes

theorem addCdnHashes_does {t : Turn} {hashes : List (ℕ × List UInt8)} (p : List ℕ)
    (hhashes : ∀ hash ∈ hashes, trust.hash hash.1 hash.2)
    (hsound : Sound t.loader t.shared.nextId) : Does trust t p (t.addCdnHashes hashes) p :=
  .of_work rfl rfl { hsound with } (.single (.cdn t.loader.cdn (addCdnHashes_known t hashes)
    fun offset hash h => (addCdnHashes_new t hashes offset hash h).imp_right
      (hhashes (offset, hash))))

theorem reuploadDone_does (h : Answered t requestId) {hashes : List (ℕ × List UInt8)}
    (hhashes : ∀ hash ∈ hashes, trust.hash hash.1 hash.2) :
    Handles trust t (t.reuploadDone requestId hashes) := by
  obtain ⟨t₁, data, hfinish, -, hloader, hdoes⟩ :=
    finish_does trust [] h.sound h.sent h.gone
  have hknown := addCdnHashes_does trust [data.offset] hhashes hdoes.kept.sound
  obtain ⟨t₂, hmake, hdoes₂, -⟩ := makeRequest_does trust data.offset []
    (show (t₁.addCdnHashes hashes).loader.finished = false by
      change t₁.loader.finished = false
      rw [hloader]
      exact h.finished)
    hknown.kept.sound (hknown.pos (hdoes.pos h.pos))
  rw [reuploadDone, hfinish, Option.bind_some]
  exact handles_quiet trust hmake ((hdoes.trans hknown).trans hdoes₂)

@[simp] theorem fedLoader_hashes (l : Loader) (offset : ℕ) (buffer : List UInt8) :
    (fedLoader l offset buffer).cdnFileHashes = l.cdnFileHashes := by
  unfold fedLoader
  split <;> rfl

@[simp] theorem fedLoader_accepted (l : Loader) (offset : ℕ) (buffer : List UInt8) :
    (fedLoader l offset buffer).accepted = l.accepted := by
  unfold fedLoader
  split <;> rfl

@[simp] theorem fedLoader_parts (l : Loader) (offset : ℕ) (buffer : List UInt8) :
    (fedLoader l offset buffer).cdnUncheckedParts = l.cdnUncheckedParts := by
  unfold fedLoader
  split <;> rfl

theorem checkParts_does {parts : List (ℕ × List UInt8)} (someMore : Bool) {t : Turn}
    (hsorted : (parts.map Prod.fst).Pairwise (· < ·))
    (hparts : ∀ part ∈ parts, part.1 ∈ t.loader.cdnUncheckedParts.map Prod.fst)
    (hknown : ∀ offset hash, t.loader.cdnFileHashes offset = some hash → trust.hash offset hash)
    (hfinished : t.loader.finished = false) (hsound : Sound t.loader t.shared.nextId) :
    ∃ t' checked, checkParts disk sha256 parts someMore t = some (t', checked) ∧
      Does trust t [] t' [] ∧ (∀ more, checked = .through more →
        t'.loader.finished = false ∧ t'.loader.cdn = t.loader.cdn) := by
  induction parts generalizing someMore t with
  | nil =>
    refine ⟨t, .through someMore, rfl, ⟨⟨Balanced.refl t, hsound⟩, .refl⟩, ?_⟩
    intro more _
    exact ⟨hfinished, rfl⟩
  | cons part rest ih =>
    rw [List.map_cons, List.pairwise_cons] at hsorted
    have hrest : ∀ other ∈ rest, other.1 ∈ t.loader.cdnUncheckedParts.map Prod.fst :=
      fun other hother => hparts other (List.mem_cons_of_mem _ hother)
    rw [checkParts]
    cases hcheck : checkCdnFileHash sha256 t.loader part.1 part.2 with
    | noHash => exact ih someMore hsorted.2 hrest hknown hfinished hsound
    | invalid =>
      obtain ⟨t', hcancel, hdoes, -⟩ := cancel_does trust hsound [] []
      refine ⟨t', .returned, by rw [hcancel]; rfl, hdoes, ?_⟩
      intro more h
      cases h
    | good =>
      dsimp only
      have hin := hparts part List.mem_cons_self
      have hhash := checkCdnFileHash_good hcheck
      have htrust : trust.part part.1 part.2 := trust.checked _ _ (hknown _ _ hhash)
      obtain ⟨t₁, ht₁⟩ : ∃ t₁ : Turn, { t with loader := { t.loader with
          cdnUncheckedParts := t.loader.cdnUncheckedParts.filter fun other => other.1 ≠ part.1
          accepted := t.loader.accepted ++ [part] } } = t₁ := ⟨_, rfl⟩
      rw [ht₁]
      have hchecked : Does trust t [] t₁ [part.1] := by
        rw [← ht₁]
        refine .of_work rfl rfl { hsound with } ?_
        exact (Relation.ReflTransGen.single (.unpark hin)).tail (.accept
          (l := { t.loader with cdnUncheckedParts :=
            t.loader.cdnUncheckedParts.filter fun other => other.1 ≠ part.1 }) hhash)
      have hfinished₁ : t₁.loader.finished = false := by rw [← ht₁]; exact hfinished
      obtain ⟨t₂, ok, hfeed, hdoes₂, hfed⟩ := feedPart_does trust disk part.1 part.2
        hfinished₁ hchecked.kept.sound htrust
      have hboth := hchecked.trans hdoes₂
      rw [hfeed, Option.bind_some]
      dsimp only
      by_cases hreturns : ok = false ∨ t₂.loader.finished = true
      · rw [if_pos hreturns]
        refine ⟨t₂, .returned, rfl, hboth, ?_⟩
        intro more h
        cases h
      rw [if_neg hreturns]
      -- The part was taken in and the loader goes on.
      have hfed₂ : t₂.loader = fedLoader t₁.loader part.1 part.2 := by
        obtain ⟨l, hl⟩ : ∃ l, t₂.loader = l := ⟨_, rfl⟩
        rw [hl] at hfed hreturns ⊢
        cases hfed with
        | failed _ => exact absurd (.inl rfl) hreturns
        | more _ => rfl
        | finished _ => exact absurd (.inr rfl) hreturns
      have hfinished₂ : t₂.loader.finished = false := by rw [hfed₂, fedLoader_finished, hfinished₁]
      have hrest₂ : ∀ other ∈ rest, other.1 ∈ t₂.loader.cdnUncheckedParts.map Prod.fst := by
        intro other hother
        obtain ⟨entry, hentry, hfirst⟩ := List.mem_map.mp (hrest other hother)
        have hlater : part.1 < other.1 := hsorted.1 _ (List.mem_map_of_mem hother)
        rw [hfed₂, fedLoader_parts, ← ht₁]
        refine List.mem_map.mpr ⟨entry, List.mem_filter.mpr ⟨hentry, ?_⟩, hfirst⟩
        rw [decide_eq_true_eq, hfirst]
        exact hlater.ne'
      have hknown₂ : ∀ offset hash, t₂.loader.cdnFileHashes offset = some hash →
          trust.hash offset hash := by
        rw [hfed₂, fedLoader_hashes, ← ht₁]
        exact hknown
      obtain ⟨t₃, checked, hloop, hdoes₃, hthrough⟩ :=
        ih true hsorted.2 hrest₂ hknown₂ hfinished₂ hboth.kept.sound
      refine ⟨t₃, checked, hloop, hboth.trans hdoes₃, ?_⟩
      intro more hmore
      have hcdn : t₂.loader.cdn = t.loader.cdn := by
        rw [hfed₂, (fedLoader_same t₁.loader part.1 part.2).cdn, ← ht₁]
      exact ⟨(hthrough more hmore).1, (hthrough more hmore).2.trans hcdn⟩

/-- No request for hashes is in flight when the marked one is answered. -/
theorem Sound.unmark {l : Loader} {n : ℕ} (h : Sound l n) (hpos : 0 < n)
    (hgone : ∀ f ∈ l.flight, f.id ≠ l.cdnHashesRequestId) :
    Sound { l with cdnHashesRequestId := 0 } n :=
  { h with
    marker_lt := hpos
    hashes := fun f hf hkind => absurd (h.hashes f hf hkind).symm (hgone f hf) }

theorem getCdnFileHashesDone_does (h : Answered t requestId) (hcdn : t.loader.cdn.dcId ≠ 0)
    (hmarker : t.loader.cdnHashesRequestId = requestId) (hparked : Parked trust t.loader)
    {hashes : List (ℕ × List UInt8)} (hhashes : ∀ hash ∈ hashes, trust.hash hash.1 hash.2) :
    Handles trust t (t.getCdnFileHashesDone disk sha256 requestId hashes) := by
  have hunmarked := h.sound.unmark h.pos (by rw [hmarker]; exact h.gone)
  obtain ⟨t₁, data, hfinish, -, hloader, hid, -, hbalanced⟩ := finish_spec
    (t := { t with loader := { t.loader with cdnHashesRequestId := 0 } }) h.sound.sent_nodup h.sent
  have hfirst : Does trust t [] t₁ [] := by
    have hcleared : Balanced t
        { t with loader := { t.loader with cdnHashesRequestId := 0 } } := .of_eq rfl rfl rfl rfl
    refine ⟨⟨hcleared.trans hbalanced, ?_⟩, ?_⟩
    · rw [hloader, hid]
      exact hunmarked.finish h.gone
    · rw [hloader, ← hmarker]
      exact .single (.finishHashes fun entry hentry => (h.sound.sent_lt entry hentry).1.ne')
  have hknown := addCdnHashes_does trust [] hhashes hfirst.kept.sound
  obtain ⟨t₂, ht₂⟩ : ∃ t₂, t₁.addCdnHashes hashes = t₂ := ⟨_, rfl⟩
  rw [ht₂] at hknown
  have hparts₂ : t₂.loader.cdnUncheckedParts = t.loader.cdnUncheckedParts := by
    rw [← ht₂]
    change t₁.loader.cdnUncheckedParts = _
    rw [hloader]
  have hfinished₂ : t₂.loader.finished = false := by
    rw [← ht₂]
    change t₁.loader.finished = false
    rw [hloader]
    exact h.finished
  have hcdn₂ : t₂.loader.cdn = t.loader.cdn := by
    rw [← ht₂]
    change t₁.loader.cdn = _
    rw [hloader]
  have hknown₂ : ∀ offset hash, t₂.loader.cdnFileHashes offset = some hash →
      trust.hash offset hash := by
    intro offset hash h
    rw [← ht₂] at h
    rcases addCdnHashes_new t₁ hashes offset hash h with hold | hnew
    · rw [hloader] at hold
      exact hparked.known offset hash hold
    · exact hhashes (offset, hash) hnew
  obtain ⟨t₃, checked, hloop, hdoes₃, hthrough⟩ := checkParts_does trust disk false
    (by rw [hparts₂]; exact hparked.sorted) (fun part hpart => List.mem_map_of_mem hpart) hknown₂
    hfinished₂ hknown.kept.sound
  have hall := (hfirst.trans hknown).trans hdoes₃
  rw [getCdnFileHashesDone, if_neg (by simp [h.finished, hmarker]), hfinish, Option.bind_some]
  dsimp only
  rw [ht₂, hloop, Option.bind_some]
  cases checked with
  | returned =>
    refine ⟨t₃, .notify, rfl, hall, ?_⟩
    intro h
    cases h
  | through more =>
    cases more with
    | true =>
      refine ⟨t₃, .notifyThenHashes, rfl, hall, fun _ => ?_⟩
      obtain ⟨hfinished₃, hcdn₃⟩ := hthrough true rfl
      rw [hcdn₃, hcdn₂]
      exact ⟨hfinished₃, hcdn⟩
    | false => exact cancel_handles trust hall

/-! ### Failures and file references -/

theorem partFailed_does (h : Answered t requestId) (error : Error) :
    Handles trust t (t.partFailed requestId error) := by
  rw [partFailed]
  split
  · refine ⟨_, .quiet, rfl, .of_work rfl rfl ?_ (.single (.frame t.loader.flight _
      t.loader.fileReference t.loader.paused)), ?_⟩
    · obtain ⟨entry, hentry, hfirst⟩ := List.mem_map.mp h.sent
      have hlt : requestId < t.shared.nextId := hfirst ▸ (h.sound.sent_lt entry hentry).2
      refine { h.sound with refresh_lt := ?_, refresh_flight := ?_ } <;> dsimp only
      · intro r hr
        rcases List.mem_append.mp hr with hold | hnew
        · exact h.sound.refresh_lt r hold
        · rw [List.mem_singleton.mp hnew]
          exact hlt
      · intro r hr f hf
        rcases List.mem_append.mp hr with hold | hnew
        · exact h.sound.refresh_flight r hold f hf
        · rw [List.mem_singleton.mp hnew]
          exact h.gone f hf
    · intro h
      cases h
  · exact cancel_handles trust (p := []) ⟨⟨Balanced.refl t, h.sound⟩, .refl⟩

theorem cdnPartFailed_does (h : Answered t requestId) (error : Error) :
    Handles trust t (t.cdnPartFailed requestId error) := by
  rw [cdnPartFailed]
  obtain ⟨t₁, ht₁⟩ : ∃ t₁ : Turn, { t with loader := { t.loader with
      cdnHashesRequestId := if requestId = t.loader.cdnHashesRequestId then 0
        else t.loader.cdnHashesRequestId } } = t₁ := ⟨_, rfl⟩
  dsimp only
  rw [ht₁]
  have hdoes : Does trust t [] t₁ [] := by
    rw [← ht₁]
    by_cases hmarked : requestId = t.loader.cdnHashesRequestId
    · rw [if_pos hmarked]
      exact .of_work rfl rfl (h.sound.unmark h.pos (hmarked ▸ h.gone))
        (.single (.unmark fun entry hentry => (h.sound.sent_lt entry hentry).1.ne'))
    · rw [if_neg hmarked]
      exact ⟨⟨Balanced.refl t, h.sound⟩, .refl⟩
  have h₁ : Answered t₁ requestId := by
    refine ⟨hdoes.kept.sound, hdoes.pos h.pos, ?_, ?_⟩ <;> rw [← ht₁]
    · exact h.sent
    · exact h.gone
  split
  · obtain ⟨t₂, data, hfinish, -, hloader, hdoes₂⟩ :=
      finish_does trust [] h₁.sound h₁.sent h₁.gone
    obtain ⟨t₃, next, hchange, hdoes₃, hnext⟩ := changeCDNParams_does trust data.offset
      .none [] (fun _ h => absurd h List.not_mem_nil) (by rw [hloader]; exact h₁.finished) hdoes₂.kept.sound (hdoes₂.pos h₁.pos)
    refine ⟨t₃, next, ?_, (hdoes.trans hdoes₂).trans hdoes₃, fun heq => absurd heq hnext⟩
    rw [hfinish, Option.bind_some]
    exact hchange
  · obtain ⟨t₂, next, hfailed, hdoes₂, hnext⟩ := partFailed_does trust h₁ error
    exact ⟨t₂, next, hfailed, hdoes.trans hdoes₂, hnext⟩

/-- A new file reference arrives while its request is still in the table, or is of no use. -/
theorem refreshFileReferenceFrom_does (requestId : ℕ) (updated current : List UInt8)
    (hsound : Sound t.loader t.shared.nextId) (hpos : 0 < t.shared.nextId)
    (hgone : ∀ f ∈ t.loader.flight, f.id ≠ requestId)
    (hsent : ¬(updated = [] ∨ updated = current) →
      requestId ∈ t.loader.sentRequests.map Prod.fst) :
    Handles trust t (t.refreshFileReferenceFrom requestId updated current) := by
  rw [refreshFileReferenceFrom]
  split
  · exact cancel_handles trust (p := []) ⟨⟨Balanced.refl t, hsound⟩, .refl⟩
  rename_i hvalid
  obtain ⟨t₁, ht₁⟩ : ∃ t₁ : Turn, { t with loader := { t.loader with
      fileReference := updated } } = t₁ := ⟨_, rfl⟩
  dsimp only
  rw [ht₁]
  have hdoes : Does trust t [] t₁ [] := by
    rw [← ht₁]
    exact .of_work rfl rfl { hsound with } (.single (.frame t.loader.flight t.loader.refreshes
      updated t.loader.paused))
  have h₁ : Answered t₁ requestId := by
    refine ⟨hdoes.kept.sound, hdoes.pos hpos, ?_, ?_⟩ <;> rw [← ht₁]
    · exact hsent hvalid
    · exact hgone
  obtain ⟨t₂, data, hfinish, -, hloader, hdoes₂⟩ :=
    finish_does trust [] h₁.sound h₁.sent h₁.gone
  obtain ⟨t₃, hmake, hdoes₃, -⟩ := makeRequest_does trust data.offset []
    (by rw [hloader]; exact h₁.finished) hdoes₂.kept.sound (hdoes₂.pos h₁.pos)
  rw [hfinish, Option.bind_some]
  exact handles_quiet trust hmake ((hdoes.trans hdoes₂).trans hdoes₃)

/-- The request of a new file reference is no longer in the table. -/
theorem refreshFileReferenceFrom_eq_none {updated current : List UInt8}
    (hvalid : ¬(updated = [] ∨ updated = current))
    (hsent : requestId ∉ t.loader.sentRequests.map Prod.fst) :
    t.refreshFileReferenceFrom requestId updated current = none := by
  have hnone : t.loader.sentRequests.find? (fun entry => entry.1 = requestId) = none := by
    rw [List.find?_eq_none]
    intro entry hentry heq
    exact hsent (List.mem_map.mpr ⟨entry, hentry, by simpa using heq⟩)
  rw [refreshFileReferenceFrom, if_neg hvalid]
  dsimp only
  rw [finishSentRequestGetOffset]
  dsimp only
  rw [hnone]
  rfl

/-- The handler of any answer that fits the request. -/
theorem handle_does {f : Flight} {answer : Answer} (h : Answered t f.id)
    (hkind : f.kind.cdn = true ↔ t.loader.cdn.dcId ≠ 0)
    (hmarker : f.kind = .cdnFileHashes → t.loader.cdnHashesRequestId = f.id)
    (hparked : Parked trust t.loader) (htrust : answer.Trusted trust t.loader f.id) :
    Handles trust t (t.handle disk sha256 aesCtr f answer) := by
  have hnothing : Does trust t [] t [] := ⟨⟨Balanced.refl t, h.sound⟩, .refl⟩
  have hquiet : Handles trust t ((some t).map fun t => (t, .quiet)) :=
    handles_quiet trust rfl hnothing
  obtain ⟨id, kind, token⟩ := f
  dsimp only at h hkind hmarker htrust
  unfold handle
  dsimp only
  cases kind <;> cases answer <;> dsimp only <;> first
    | exact hquiet
    | exact normalPartLoaded_does trust disk h _ htrust
    | exact switchToCDN_does trust h _ htrust
    | exact webPartLoaded_does trust disk h _ _ htrust.1 htrust.2
    | exact partFailed_does trust h _
    | exact cdnPartLoaded_does trust disk aesCtr h (hkind.mp rfl) hparked _
    | exact cdnReuploadNeeded_does trust h (hkind.mp rfl)
    | exact reuploadDone_does trust h htrust
    | exact getCdnFileHashesDone_does trust disk h (hkind.mp rfl) (hmarker rfl) hparked htrust
    | exact cdnPartFailed_does trust h _

end Turn

end Bettergram.Storage.FileDownload
