import Bettergram.Storage.FileDownloadAnswers
import Mathlib.Algebra.BigOperators.Group.Finset.Piecewise
import Mathlib.Algebra.BigOperators.Ring.Finset

/-! # Runs of the loaders of a queue

Whatever happens to the loaders of a queue, its count and the amounts of the
downloader are what their tables say. An assertion fails in one case only: a new
file reference comes for a request that was given up meanwhile.
-/

namespace Bettergram.Storage.FileDownload

open Foundation

variable {sha256 : List UInt8 → List UInt8} (trust : Trust sha256)

/-! ## The parts that wait for a hash -/

theorem mem_emplace {key offset : ℕ} {value : List UInt8} {parts : List (ℕ × List UInt8)} :
    offset ∈ (emplace key value parts).map Prod.fst ↔
      offset = key ∨ offset ∈ parts.map Prod.fst := by
  induction parts with
  | nil => simp [emplace]
  | cons entry rest ih =>
    rw [emplace]
    split
    · simp
    · split
      · rename_i heq
        simp [heq]
      · rw [List.map_cons, List.mem_cons, ih, List.map_cons, List.mem_cons]
        tauto

theorem emplace_sorted (key : ℕ) (value : List UInt8) {parts : List (ℕ × List UInt8)}
    (h : (parts.map Prod.fst).Pairwise (· < ·)) :
    ((emplace key value parts).map Prod.fst).Pairwise (· < ·) := by
  induction parts with
  | nil => simp [emplace]
  | cons entry rest ih =>
    have hrest := List.pairwise_cons.mp h
    rw [emplace]
    split
    · rename_i hlt
      refine List.pairwise_cons.mpr ⟨fun other hother => ?_, h⟩
      rcases List.mem_cons.mp hother with heq | hmem
      · exact heq ▸ hlt
      · exact hlt.trans (hrest.1 other hmem)
    · split
      · exact h
      · rename_i hlt hne
        refine List.pairwise_cons.mpr ⟨fun other hother => ?_, ih hrest.2⟩
        rcases mem_emplace.mp hother with heq | hmem
        · rw [heq]
          omega
        · exact hrest.1 other hmem

variable {trust}

theorem Parked.work {s s' : Loader × List ℕ} (h : Work trust s s') (hparked : Parked trust s.1) :
    Parked trust s'.1 := by
  cases h with
  | park buffer => exact { hparked with sorted := emplace_sorted _ _ hparked.sorted }
  | unpark _ =>
    exact { hparked with sorted := hparked.sorted.sublist (List.Sublist.map _ List.filter_sublist) }
  | cdn params hknown htrust =>
    exact { hparked with
      known := fun offset hash hhash =>
        (htrust offset hash hhash).elim (hparked.known offset hash) id }
  | feed hfinished htrust =>
    exact ⟨by rw [Turn.fedLoader_parts]; exact hparked.sorted,
      by rw [Turn.fedLoader_hashes]; exact hparked.known⟩
  | cancel hcancelled =>
    exact ⟨by rw [hcancelled.cdnUncheckedParts]; exact hparked.sorted,
      by rw [hcancelled.cdnFileHashes]; exact hparked.known⟩
  | _ => exact { hparked with }

theorem Parked.works {s s' : Loader × List ℕ} (h : Works trust s s') (hparked : Parked trust s.1) :
    Parked trust s'.1 := by
  induction h with
  | refl => exact hparked
  | tail _ hwork ih => exact ih.work hwork

/-! ## Parts that were checked -/

def Checked (sha256 : List UInt8 → List UInt8) (l : Loader) : Prop :=
  ∀ part ∈ l.accepted, l.cdnFileHashes part.1 = some (sha256 part.2)

theorem Checked.work {s s' : Loader × List ℕ} (h : Work trust s s') (hchecked : Checked sha256 s.1) :
    Checked sha256 s'.1 := by
  cases h with
  | accept hhash =>
    intro part hpart
    rcases List.mem_append.mp hpart with hold | hnew
    · exact hchecked part hold
    · rw [List.mem_singleton.mp hnew]
      exact hhash
  | cdn params hknown htrust => exact fun part hpart => hknown _ _ (hchecked part hpart)
  | feed hfinished htrust =>
    intro part hpart
    rw [Turn.fedLoader_hashes]
    exact hchecked part (by rwa [Turn.fedLoader_accepted] at hpart)
  | cancel hcancelled =>
    intro part hpart
    rw [hcancelled.cdnFileHashes]
    exact hchecked part (by rwa [hcancelled.accepted] at hpart)
  | _ => exact hchecked

theorem Checked.works {s s' : Loader × List ℕ} (h : Works trust s s')
    (hchecked : Checked sha256 s.1) : Checked sha256 s'.1 := by
  induction h with
  | refl => exact hchecked
  | tail _ hwork ih => exact ih.work hwork

/-! ## The world -/

/-- Nothing is expected of the answers. -/
def Trust.any (sha256 : List UInt8 → List UInt8) : Trust sha256 where
  part _ _ := True
  hash _ _ := True
  size _ := True
  checked _ _ _ := trivial

/-- A loader as it is made. -/
structure Loader.Fresh (l : Loader) : Prop where
  inQueue : l.inQueue = false
  finished : l.finished = false
  cancelled : l.cancelled = false
  fileIsOpen : l.fileIsOpen = false
  data : l.data = []
  lastComplete : l.lastComplete = false
  nextRequestOffset : l.nextRequestOffset = 0
  sentRequests : l.sentRequests = []
  cdn : l.cdn = CdnParams.none
  cdnFileHashes : ∀ offset, l.cdnFileHashes offset = none
  cdnUncheckedParts : l.cdnUncheckedParts = []
  cdnHashesRequestId : l.cdnHashesRequestId = 0
  flight : l.flight = []
  refreshes : l.refreshes = []
  accepted : l.accepted = []

/-- A new loader of a file of unknown size. -/
def newLoader : Loader where
  dcId := 2
  web := false
  fromLocalOnly := false
  hasFilename := false
  toCache := .toCacheAsWell
  fileReference := []
  size := 0
  inQueue := false
  paused := false
  finished := false
  cancelled := false
  fileIsOpen := false
  file := []
  data := []
  lastComplete := false
  nextRequestOffset := 0
  sentRequests := []
  cdn := .none
  cdnFileHashes := fun _ => none
  cdnUncheckedParts := []
  cdnHashesRequestId := 0
  flight := []
  refreshes := []
  accepted := []

theorem newLoader_fresh : newLoader.Fresh := by
  constructor <;> intros <;> rfl

theorem Loader.Fresh.sound {l : Loader} (h : l.Fresh) {n : ℕ} (hpos : 0 < n) : Turn.Sound l n where
  sent_lt := by simp [h.sentRequests]
  sent_nodup := by simp [h.sentRequests]
  flight_sent := by simp [h.flight]
  refresh_lt := by simp [h.refreshes]
  marker_lt := by rw [h.cdnHashesRequestId]; exact hpos
  refresh_flight := by simp [h.refreshes]
  finished_sent _ := h.sentRequests
  hashes := by simp [h.flight]
  kinds := by simp [h.flight]
  cdnValid hne := by
    rw [h.cdn] at hne
    exact absurd rfl hne

namespace World

variable {ι : Type}

structure Fresh (w : World ι) : Prop where
  loaders : ∀ i, (w.loaders i).Fresh
  queriesCount : w.shared.queriesCount = 0
  requestedAmount : ∀ dcId index, w.shared.requestedAmount dcId index = 0
  nextId : 0 < w.shared.nextId

variable [Fintype ι] {trust : ι → Trust sha256}

/-- The count of the queue and the amounts of the downloader are what the tables say. -/
structure Exact (w : World ι) : Prop where
  count : w.shared.queriesCount = ∑ i, ((w.loaders i).sentRequests.length : ℤ)
  amount : ∀ dcId index, w.shared.requestedAmount dcId index =
    partSize * ∑ i, ((w.loaders i).requestsTo dcId index : ℤ)

structure Invariant (trust : ι → Trust sha256) (w : World ι) : Prop where
  pos : 0 < w.shared.nextId
  sound : ∀ i, Turn.Sound (w.loaders i) w.shared.nextId
  parked : ∀ i, Parked (trust i) (w.loaders i)
  exact : w.Exact

def oneLoader : World Unit := ⟨fun _ => newLoader, [], ⟨0, fun _ _ => 0, 1, 0⟩⟩

theorem oneLoader_fresh : oneLoader.Fresh :=
  ⟨fun _ => newLoader_fresh, rfl, fun _ _ => rfl, Nat.one_pos⟩

theorem Fresh.invariant {w : World ι} (h : w.Fresh) : w.Invariant trust where
  pos := h.nextId
  sound i := (h.loaders i).sound h.nextId
  parked i := ⟨by simp [(h.loaders i).cdnUncheckedParts], by simp [(h.loaders i).cdnFileHashes]⟩
  exact :=
    { count := by simp [h.queriesCount, (h.loaders _).sentRequests]
      amount := by simp [h.requestedAmount, Loader.requestsTo, (h.loaders _).sentRequests] }

/-- From one world to another by work of the loaders. -/
structure Goes (trust : ι → Trust sha256) (w w' : World ι) : Prop where
  invariant : w'.Invariant trust
  works : ∀ i, Works (trust i) (w.loaders i, []) (w'.loaders i, [])

theorem Goes.refl {w : World ι} (h : w.Invariant trust) : Goes trust w w := ⟨h, fun _ => .refl⟩

theorem Goes.trans {w w' w'' : World ι} (h : Goes trust w w') (h' : Goes trust w' w'') :
    Goes trust w w'' := ⟨h'.invariant, fun i => (h.works i).trans (h'.works i)⟩

/-- The order of the queue is not looked at. -/
theorem Goes.queued {w w' : World ι} (h : Goes trust w w') (queue : List ι) :
    Goes trust w { w' with queue } where
  invariant := { h.invariant with exact := { h.invariant.exact with } }
  works := h.works

/-- What loading leaves as it is. -/
structure Calm (l l' : Loader) : Prop where
  finished : l'.finished = l.finished
  inQueue : l'.inQueue = l.inQueue
  cdn : l'.cdn = l.cdn

/-- Loaders go on, and keep what loading leaves as it is. -/
structure Loads (trust : ι → Trust sha256) (w w' : World ι) : Prop where
  goes : Goes trust w w'
  calm : ∀ i, Calm (w.loaders i) (w'.loaders i)

theorem Loads.refl {w : World ι} (h : w.Invariant trust) : Loads trust w w :=
  ⟨.refl h, fun _ => ⟨rfl, rfl, rfl⟩⟩

theorem Loads.trans {w w' w'' : World ι} (h : Loads trust w w') (h' : Loads trust w' w'') :
    Loads trust w w'' :=
  ⟨h.goes.trans h'.goes, fun i => ⟨(h'.calm i).finished.trans (h.calm i).finished,
    (h'.calm i).inQueue.trans (h.calm i).inQueue, (h'.calm i).cdn.trans (h.calm i).cdn⟩⟩

/-! ### One loader at work -/

variable [DecidableEq ι]

/-- A sum in which one term changes. -/
theorem sum_update (g : ι → ℤ) (i : ι) (b : ℤ) :
    ∑ j, Function.update g i b j = ∑ j, g j - g i + b := by
  have hsplit := Finset.add_sum_erase Finset.univ g (Finset.mem_univ i)
  rw [Finset.sum_update_of_mem (Finset.mem_univ i), ← Finset.erase_eq]
  linarith

omit [Fintype ι] in
theorem put_self (w : World ι) (i : ι) (t : Turn) : (w.put i t).loaders i = t.loader := by
  simp [put]

omit [Fintype ι] in
theorem put_other (w : World ι) {i j : ι} (t : Turn) (h : j ≠ i) :
    (w.put i t).loaders j = w.loaders j := by
  simp [put, h]

theorem sum_put (w : World ι) (i : ι) (t : Turn) (g : Loader → ℤ) :
    ∑ j, g ((w.put i t).loaders j) = ∑ j, g (w.loaders j) - g (w.loaders i) + g t.loader := by
  have hcomp : ∀ j, g ((w.put i t).loaders j) =
      Function.update (fun j => g (w.loaders j)) i (g t.loader) j := by
    intro j
    exact Function.apply_update (fun _ => g) w.loaders i t.loader j
  rw [Finset.sum_congr rfl fun j _ => hcomp j, sum_update]

theorem put_goes {w : World ι} {i : ι} {t : Turn} (h : w.Invariant trust)
    (hdoes : Turn.Does (trust i) (w.turn i) [] t []) : Goes trust w (w.put i t) := by
  have hworks : ∀ j, Works (trust j) (w.loaders j, []) ((w.put i t).loaders j, []) := by
    intro j
    by_cases hj : j = i
    · rw [hj, put_self]
      exact hdoes.works
    · rw [put_other w t hj]
  have hbalanced := hdoes.kept.balanced
  refine ⟨⟨h.pos.trans_le hbalanced.nextId, fun j => ?_, fun j => (h.parked j).works (hworks j),
    ⟨?_, fun dcId index => ?_⟩⟩, hworks⟩
  · by_cases hj : j = i
    · rw [hj, put_self]
      exact hdoes.kept.sound
    · rw [put_other w t hj]
      exact (h.sound j).mono hbalanced.nextId
  · have hcount := hbalanced.count
    have hsum := sum_put w i t fun l => (l.sentRequests.length : ℤ)
    have hwas := h.exact.count
    dsimp only [turn] at hcount
    rw [hsum, ← hwas]
    change t.shared.queriesCount = _
    omega
  · have hamount := hbalanced.amount dcId index
    have hsum := sum_put w i t fun l => (l.requestsTo dcId index : ℤ)
    have hwas := h.exact.amount dcId index
    dsimp only [turn] at hamount
    rw [hsum, mul_add, mul_sub, ← hwas]
    change t.shared.requestedAmount dcId index = _
    linarith

/-! ### Loading more -/

theorem canLoad_finished {l : Loader} (h : l.canLoad = true) : l.finished = false := by
  cases hfinished : l.finished with
  | false => rfl
  | true => simp [Loader.canLoad, hfinished] at h

theorem loadPart_does {trust : Trust sha256} {t : Turn} (hsound : Turn.Sound t.loader t.shared.nextId)
    (hpos : 0 < t.shared.nextId) (hqueue : t.loader.inQueue = true) :
    ∃ t', t.loadPart = some t' ∧ Turn.Does trust t [] t' [] ∧ Calm t.loader t'.loader := by
  rw [Turn.loadPart]
  split
  · rename_i hcan
    have hfinished := canLoad_finished hcan
    obtain ⟨t₁, hmake, hbalanced, hsound₁, hloader⟩ :=
      Turn.makeRequest_sound t.loader.nextRequestOffset hfinished hsound hpos
    rw [hmake, Option.map_some]
    refine ⟨_, rfl, ⟨⟨hbalanced.trans (.of_eq rfl rfl rfl rfl), { hsound₁ with }⟩, ?_⟩, ?_⟩
    · dsimp only
      rw [hloader]
      exact (Relation.ReflTransGen.single (.frame _ t.loader.refreshes t.loader.fileReference
        t.loader.paused)).tail (.load (l := { t.loader with
          flight := t.loader.flight ++
            [⟨t.shared.nextId, t.loader.requestKind, t.loader.cdn.token⟩] })
          hcan hqueue hsound.marker_lt.ne' rfl)
    · constructor <;> dsimp only <;> rw [hloader]
  · exact ⟨t, rfl, ⟨⟨.refl t, hsound⟩, .refl⟩, rfl, rfl, rfl⟩

theorem loadPart_loads {w : World ι} {i : ι} (h : w.Invariant trust)
    (hqueue : (w.loaders i).inQueue = true) :
    ∃ t, (w.turn i).loadPart = some t ∧ Loads trust w (w.put i t) := by
  obtain ⟨t, hload, hdoes, hcalm⟩ := loadPart_does (t := w.turn i) (h.sound i) h.pos hqueue
  refine ⟨t, hload, put_goes h hdoes, fun j => ?_⟩
  by_cases hj : j = i
  · rw [hj, put_self]
    exact hcalm
  · rw [put_other w t hj]
    exact ⟨rfl, rfl, rfl⟩

theorem loadWhile_loads {w : World ι} {i : ι} (rounds : ℕ) (h : w.Invariant trust)
    (hqueue : (w.loaders i).inQueue = true) :
    ∃ w', loadWhile i rounds w = some w' ∧ Loads trust w w' := by
  induction rounds generalizing w with
  | zero => exact ⟨w, rfl, .refl h⟩
  | succ rounds ih =>
    rw [loadWhile]
    split
    · obtain ⟨t, hload, hloads⟩ := loadPart_loads h hqueue
      rw [hload, Option.bind_some]
      split
      · exact ⟨_, rfl, hloads⟩
      · obtain ⟨w', hrest, hloads'⟩ := ih hloads.goes.invariant
          ((hloads.calm i).inQueue.trans hqueue)
        exact ⟨w', hrest, hloads.trans hloads'⟩
    · exact ⟨w, rfl, .refl h⟩

theorem loadNextFromQueue_loads {w : World ι} (h : w.Invariant trust) :
    ∃ w', w.loadNextFromQueue = some w' ∧ Loads trust w w' := by
  have hall : ∀ (queue : List ι) (w : World ι), w.Invariant trust →
      ∃ w', queue.foldlM loadOne w = some w' ∧ Loads trust w w' := by
    intro queue
    induction queue with
    | nil =>
      intro w h
      exact ⟨w, rfl, .refl h⟩
    | cons i rest ih =>
      intro w h
      obtain ⟨w₁, hone, hloads⟩ : ∃ w₁, w.loadOne i = some w₁ ∧ Loads trust w w₁ := by
        rw [loadOne]
        split
        · exact ⟨w, rfl, .refl h⟩
        · rename_i hgoes
          exact loadWhile_loads _ h (not_not.mp (not_or.mp hgoes).1)
      obtain ⟨w₂, hrest, hloads₂⟩ := ih w₁ hloads.goes.invariant
      refine ⟨w₂, ?_, hloads.trans hloads₂⟩
      rw [List.foldlM_cons, hone]
      exact hrest
  exact hall w.queue w h

/-- The end of a handler. -/
theorem settle_goes {w : World ι} {i : ι} {handled : Option (Turn × Next)}
    (h : w.Invariant trust) (hhandled : Turn.Handles (trust i) (w.turn i) handled) :
    ∃ w', handled.bind (w.settle i) = some w' ∧ Goes trust w w' := by
  obtain ⟨t, next, rfl, hdoes, hnext⟩ := hhandled
  have hput := put_goes h hdoes
  rw [Option.bind_some]
  cases next with
  | quiet => exact ⟨_, rfl, hput⟩
  | notify =>
    obtain ⟨w', hload, hloads⟩ := loadNextFromQueue_loads hput.invariant
    exact ⟨w', hload, hput.trans hloads.goes⟩
  | notifyThenHashes =>
    obtain ⟨hfinished, hcdn⟩ := hnext rfl
    obtain ⟨w₁, hload, hloads⟩ := loadNextFromQueue_loads hput.invariant
    have hcalm := hloads.calm i
    rw [put_self] at hcalm
    obtain ⟨t', hmore, hdoes'⟩ := Turn.requestMoreCdnFileHashes_does (trust i) (t := w₁.turn i) []
      (hcalm.finished.trans hfinished) (hloads.goes.invariant.sound i) hloads.goes.invariant.pos
      (by
        change (w₁.loaders i).cdn.dcId ≠ 0
        rw [hcalm.cdn]
        exact hcdn)
    refine ⟨w₁.put i t', ?_, (hput.trans hloads.goes).trans
      (put_goes hloads.goes.invariant hdoes')⟩
    rw [settle]
    dsimp only
    rw [hload, Option.bind_some, hmore, Option.map_some]

/-! ### Events -/

/-- The loader goes to the queue; its file is open when it is to be written there only. -/
theorem enqueue_goes {w : World ι} {i : ι} {t : Turn} (loadFirst prior : Bool) (position : ℕ)
    (h : w.Invariant trust) (hdoes : Turn.Does (trust i) (w.turn i) [] t [])
    (hfinished : t.loader.finished = false)
    (hopen : t.loader.hasFilename = true → t.loader.toCache = .toFileOnly →
      t.loader.fileIsOpen = true) :
    ∃ w', w.enqueue i t loadFirst prior position = some w' ∧ Goes trust w w' := by
  have hqueued : Turn.Does (trust i) (w.turn i) []
      { t with loader := { t.loader with inQueue := true } } [] :=
    hdoes.trans (.of_work rfl rfl { hdoes.kept.sound with } (.single (.enqueue hfinished hopen)))
  rw [enqueue]
  dsimp only
  split
  · exact ⟨_, rfl, (put_goes h hqueued).queued _⟩
  · obtain ⟨t₂, hload, hdoes₂, -⟩ := loadPart_does hqueued.kept.sound (hqueued.pos h.pos) rfl
    rw [hload, Option.map_some]
    exact ⟨_, rfl, (put_goes h (hqueued.trans hdoes₂)).queued _⟩

theorem cancelled_goes {w : World ι} {i : ι} {t : Turn} (h : w.Invariant trust)
    (hdoes : Turn.Does (trust i) (w.turn i) [] t []) :
    ∃ w', (t.cancel.bind fun t => w.settle i (t, .notify)) = some w' ∧ Goes trust w w' := by
  obtain ⟨w', hsettle, hgoes⟩ := settle_goes h (Turn.cancel_handles (trust i) hdoes)
  refine ⟨w', ?_, hgoes⟩
  rw [← hsettle]
  cases t.cancel <;> rfl

theorem start_goes {w : World ι} (disk : ℕ → Bool) (i : ι) (loadFirst prior : Bool) (position : ℕ)
    (h : w.Invariant trust) :
    ∃ w', w.start disk i loadFirst prior position = some w' ∧ Goes trust w w' := by
  obtain ⟨t, ht⟩ : ∃ t : Turn, ⟨{ w.loaders i with paused := false }, w.shared⟩ = t := ⟨_, rfl⟩
  have hdoes : Turn.Does (trust i) (w.turn i) [] t [] := by
    rw [← ht]
    exact .of_work rfl rfl { h.sound i with } (.single (.frame (w.loaders i).flight
      (w.loaders i).refreshes (w.loaders i).fileReference false))
  rw [start]
  dsimp only
  rw [ht]
  split
  · exact ⟨_, rfl, put_goes h hdoes⟩
  rename_i hrunning
  have hfinished : t.loader.finished = false := by
    rw [← ht]
    exact Bool.eq_false_iff.mpr hrunning
  split
  · exact cancelled_goes h hdoes
  split
  · rename_i hopens
    have htouched : Turn.Does (trust i) (w.turn i) [] (Turn.touchFile disk t).1 [] :=
      hdoes.trans ⟨⟨.of_eq rfl rfl rfl rfl, hdoes.kept.sound⟩, .refl⟩
    obtain ⟨hname, honly, hclosed⟩ : t.loader.hasFilename = true ∧
        t.loader.toCache = .toFileOnly ∧ ¬t.loader.fileIsOpen = true := by
      rw [← ht]
      exact hopens
    split
    · have hopened : Turn.Does (trust i) (w.turn i) [] { (Turn.touchFile disk t).1 with
          loader := { (Turn.touchFile disk t).1.loader with fileIsOpen := true, file := [] } } [] :=
        htouched.trans (.of_work rfl rfl { hdoes.kept.sound with } (.single
          (.openFile hfinished hname honly (Bool.eq_false_iff.mpr hclosed))))
      exact enqueue_goes loadFirst prior position h hopened hfinished fun _ _ => rfl
    · exact cancelled_goes h htouched
  · rename_i hopens
    refine enqueue_goes loadFirst prior position h hdoes hfinished fun hname honly => ?_
    by_contra hclosed
    rw [← ht] at hname honly hclosed
    exact hopens ⟨hname, honly, hclosed⟩

/-- The answers of the data centers say what is so. -/
def Trusted (trust : ι → Trust sha256) (w : World ι) : Event ι → Prop
  | .answer i requestId answer => answer.Trusted (trust i) (w.loaders i) requestId
  | _ => True

omit [Fintype ι] [DecidableEq ι] in
theorem trusted_any (w : World ι) (event : Event ι) :
    w.Trusted (fun _ => Trust.any sha256) event := by
  cases event with
  | answer i requestId answer =>
    cases answer with
    | webFile size bytes => exact ⟨trivial, fun _ _ => trivial⟩
    | file bytes => exact fun _ _ => trivial
    | fileCdnRedirect params hashes => exact fun _ _ => trivial
    | fileHashes hashes => exact fun _ _ => trivial
    | _ => trivial
  | _ => trivial

/-- A new file reference comes for a request that is no longer in the table. -/
def Dropped (w : World ι) (event : Event ι) : Prop :=
  ∃ i requestId updated r, event = .refresh i requestId updated ∧
    (w.loaders i).refreshes.find? (fun r => r.requestId = requestId) = some r ∧
    updated ≠ [] ∧ updated ≠ r.current ∧
    requestId ∉ (w.loaders i).sentRequests.map Prod.fst

variable (disk : ℕ → Bool) (aesCtr : List UInt8 → List UInt8 → ℕ → List UInt8 → List UInt8)

theorem answer_goes {w : World ι} {i : ι} {requestId : ℕ} {answer : Turn.Answer}
    (h : w.Invariant trust) (htrust : answer.Trusted (trust i) (w.loaders i) requestId) :
    ∃ w', w.step disk sha256 aesCtr (.answer i requestId answer) = some w' ∧ Goes trust w w' := by
  rw [step]
  cases hfound : (w.loaders i).flight.find? fun f => f.id = requestId with
  | none => exact ⟨w, rfl, .refl h⟩
  | some f =>
    dsimp only
    split
    swap
    · exact ⟨w, rfl, .refl h⟩
    have hid : f.id = requestId := by simpa using List.find?_some hfound
    have hin : f ∈ (w.loaders i).flight := List.mem_of_find?_eq_some hfound
    have hsound := h.sound i
    have hforgot : Turn.Does (trust i) (w.turn i) [] ((w.turn i).forget f.id) [] :=
      .of_work rfl rfl (hsound.forget f.id) (.single (.frame _ (w.loaders i).refreshes
        (w.loaders i).fileReference (w.loaders i).paused))
    have hanswered : Turn.Answered ((w.turn i).forget f.id) f.id :=
      { sound := hforgot.kept.sound
        pos := h.pos
        sent := hsound.flight_sent f hin
        gone := fun g hg => by simpa using (List.mem_filter.mp hg).2 }
    obtain ⟨t, next, hhandle, hdoes, hnext⟩ := Turn.handle_does (trust i) disk aesCtr hanswered
      (hsound.kinds f hin).1 (hsound.hashes f hin) { h.parked i with } (hid ▸ htrust)
    exact settle_goes h ⟨t, next, hhandle, hforgot.trans hdoes, hnext⟩

theorem refresh_goes {w : World ι} {i : ι} {requestId : ℕ} {updated : List UInt8}
    (h : w.Invariant trust) (hkept : ¬w.Dropped (.refresh i requestId updated)) :
    ∃ w', w.step disk sha256 aesCtr (.refresh i requestId updated) = some w' ∧
      Goes trust w w' := by
  rw [step]
  cases hfound : (w.loaders i).refreshes.find? fun r => r.requestId = requestId with
  | none => exact ⟨w, rfl, .refl h⟩
  | some r =>
    dsimp only
    have hid : r.requestId = requestId := by simpa using List.find?_some hfound
    have hin : r ∈ (w.loaders i).refreshes := List.mem_of_find?_eq_some hfound
    have hsound := h.sound i
    obtain ⟨t, ht⟩ : ∃ t : Turn, ⟨{ w.loaders i with
        refreshes := (w.loaders i).refreshes.erase r }, w.shared⟩ = t := ⟨_, rfl⟩
    rw [ht]
    have hdoes : Turn.Does (trust i) (w.turn i) [] t [] := by
      rw [← ht]
      exact .of_work rfl rfl { hsound with
          refresh_lt := fun r hr => hsound.refresh_lt r (List.mem_of_mem_erase hr)
          refresh_flight := fun r hr => hsound.refresh_flight r (List.mem_of_mem_erase hr) }
        (.single (.frame (w.loaders i).flight _ (w.loaders i).fileReference (w.loaders i).paused))
    obtain ⟨t', next, hhandle, hdoes', hnext⟩ := Turn.refreshFileReferenceFrom_does (trust i)
      requestId updated r.current hdoes.kept.sound
      (hdoes.pos h.pos)
      (by
        rw [← ht]
        intro f hf
        rw [← hid]
        exact hsound.refresh_flight r hin f hf)
      (by
        intro hvalid
        by_contra hsent
        rw [← ht] at hsent
        obtain ⟨hne, hother⟩ := not_or.mp hvalid
        exact hkept ⟨i, requestId, updated, r, rfl, hfound, hne, hother, hsent⟩)
    exact settle_goes h ⟨t', next, hhandle, hdoes.trans hdoes', hnext⟩

/-- An event comes to its end unless it asks for a request that was given up. -/
theorem step_goes {w : World ι} {event : Event ι} (h : w.Invariant trust)
    (htrust : w.Trusted trust event) (hkept : ¬w.Dropped event) :
    ∃ w', w.step disk sha256 aesCtr event = some w' ∧ Goes trust w w' := by
  cases event with
  | start i loadFirst prior position => exact start_goes disk i loadFirst prior position h
  | pause i =>
    have hpaused : Turn.Does (trust i) (w.turn i) []
        ⟨{ w.loaders i with inQueue := false, paused := true }, w.shared⟩ [] :=
      .of_work rfl rfl { h.sound i with } ((Relation.ReflTransGen.single .unqueue).tail (.frame
        (l := { w.loaders i with inQueue := false }) (w.loaders i).flight (w.loaders i).refreshes
        (w.loaders i).fileReference true))
    exact ⟨_, rfl, put_goes h hpaused⟩
  | cancel i => exact cancelled_goes h ⟨⟨.refl _, h.sound i⟩, .refl⟩
  | answer i requestId answer => exact answer_goes disk aesCtr h htrust
  | refresh i requestId updated => exact refresh_goes disk aesCtr h hkept

omit [Fintype ι] in
/-- The assertion on the table fails. -/
theorem step_dropped {w : World ι} {event : Event ι} (h : w.Dropped event) :
    w.step disk sha256 aesCtr event = none := by
  obtain ⟨i, requestId, updated, r, rfl, hfound, hne, hother, hsent⟩ := h
  rw [step, hfound]
  dsimp only
  rw [Turn.refreshFileReferenceFrom_eq_none (not_or.mpr ⟨hne, hother⟩) hsent, Option.bind_none]

/-! ## Runs -/

theorem run_goes {w w' : World ι} {events : List (Event ι)} (h : w.Invariant fun _ => Trust.any sha256)
    (hrun : w.run disk sha256 aesCtr events = some w') : Goes (fun _ => Trust.any sha256) w w' := by
  induction events generalizing w with
  | nil =>
    cases hrun
    exact .refl h
  | cons event events ih =>
    rw [run, List.foldlM_cons] at hrun
    obtain ⟨w₁, hstep, hrest⟩ := Option.bind_eq_some_iff.mp hrun
    have hkept : ¬w.Dropped event := by
      intro hdropped
      rw [step_dropped disk aesCtr hdropped] at hstep
      cases hstep
    obtain ⟨w₂, hstep₂, hgoes⟩ := step_goes disk aesCtr h (trusted_any w event) hkept
    obtain rfl : w₂ = w₁ := Option.some.inj (hstep₂.symm.trans hstep)
    exact hgoes.trans (ih hgoes.invariant hrest)

/-- The count of the queue and the amounts of the downloader are those of the tables after every
run, and the next event fails an assertion only when it refreshes a request that was dropped. -/
theorem run_amounts {w w' : World ι} {events : List (Event ι)} (hfresh : w.Fresh)
    (hrun : w.run disk sha256 aesCtr events = some w') :
    w'.Exact ∧ ∀ event, w'.step disk sha256 aesCtr event = none ↔ w'.Dropped event := by
  have hinvariant := (run_goes disk aesCtr hfresh.invariant hrun).invariant
  refine ⟨hinvariant.exact, fun event => ⟨fun hnone => ?_, step_dropped disk aesCtr⟩⟩
  by_contra hkept
  obtain ⟨w₁, hstep, -⟩ := step_goes disk aesCtr hinvariant (trusted_any w' event) hkept
  rw [hnone] at hstep
  cases hstep

/-- The file comes from a CDN, and its only part waits for a hash. -/
def oneFromCdn : List (Event Unit) :=
  [.start () true true 0,
    .answer () 1 (.fileCdnRedirect ⟨4, [7], List.replicate 32 0, List.replicate 16 0⟩ []),
    .answer () 2 (.cdnFile [1, 2, 3]),
    .answer () 3 (.fileHashes [(0, [1, 2, 3])])]

theorem oneFromCdn_run :
    ∃ w', oneLoader.run (fun _ => true) id (fun _ _ _ bytes => bytes) oneFromCdn = some w' ∧
      (w'.loaders ()).finished = true ∧ (w'.loaders ()).cancelled = false ∧
      (w'.loaders ()).accepted = [(0, [1, 2, 3])] := by
  have hend : (oneLoader.run (fun _ => true) id (fun _ _ _ bytes => bytes) oneFromCdn).map
      (fun w => ((w.loaders ()).finished, (w.loaders ()).cancelled, (w.loaders ()).accepted)) =
        some (true, false, [(0, [1, 2, 3])]) := by decide +kernel
  obtain ⟨w', hrun, hw'⟩ := Option.map_eq_some_iff.mp hend
  obtain ⟨hfinished, hboth⟩ := Prod.mk.inj hw'
  obtain ⟨hcancelled, haccepted⟩ := Prod.mk.inj hboth
  exact ⟨w', hrun, hfinished, hcancelled, haccepted⟩

theorem run_amounts_oneFromCdn :
    ∃ w', oneLoader.run (fun _ => true) id (fun _ _ _ bytes => bytes) oneFromCdn = some w' ∧
      w'.Exact := by
  obtain ⟨w', hrun, -⟩ := oneFromCdn_run
  exact ⟨w', hrun, (run_amounts _ _ oneLoader_fresh hrun).1⟩

/-- Every part of a CDN that was taken in has the hash that is known for its offset. -/
theorem run_checked {w w' : World ι} {events : List (Event ι)} (hfresh : w.Fresh)
    (hrun : w.run disk sha256 aesCtr events = some w') (i : ι) :
    ∀ part ∈ (w'.loaders i).accepted,
      (w'.loaders i).cdnFileHashes part.1 = some (sha256 part.2) := by
  have hgoes := run_goes disk aesCtr hfresh.invariant hrun
  have hstart : Checked sha256 (w.loaders i) := by
    intro part hpart
    rw [(hfresh.loaders i).accepted] at hpart
    cases hpart
  exact hstart.works (hgoes.works i)

theorem run_checked_oneFromCdn :
    ∃ w', oneLoader.run (fun _ => true) id (fun _ _ _ bytes => bytes) oneFromCdn = some w' ∧
      (w'.loaders ()).cdnFileHashes 0 = some [1, 2, 3] := by
  obtain ⟨w', hrun, -, -, haccepted⟩ := oneFromCdn_run
  refine ⟨w', hrun, ?_⟩
  exact run_checked _ _ oneLoader_fresh hrun () (0, [1, 2, 3]) (by rw [haccepted]; simp)

end World

end Bettergram.Storage.FileDownload
