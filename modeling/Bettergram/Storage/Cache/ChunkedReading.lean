import Bettergram.Storage.Cache.ChunkedReader

/-! # Chunked reading is reading at once

With a buffer of whole blocks that the settings accept, and reads that give at least one block
before the end, the loop of the reader hands over the records of the whole body, whatever the
sizes of the reads are.
-/

namespace Bettergram.Storage.Cache
open Foundation

variable {settings : Settings} {readBlockSize : ℕ} {σ : Type}
  {handle : List UInt8 → σ → Bool × σ} {w : BufferedWrapper}

/-- Between two reads: the reader without a buffer is between two blocks. -/
structure ChunkedReading (settings : Settings) (readBlockSize : ℕ) (w : BufferedWrapper) :
    Prop where
  reading : Reading settings w.unbuffered
  inside : w.Inside
  full_length : w.full.length = readBlockSize
  till_nonneg : 0 ≤ w.till

/-- A read gives the whole blocks of what the device gave. -/
theorem peek_whole {p : PlainFile} {n : ℕ} (hle : p.cursor + n ≤ p.data.length) :
    p.peek n = p.peek (n - n % kBlockSize) ∧ (p.peek n).length = n - n % kBlockSize := by
  have hlength : ((p.data.drop p.cursor).take n).length = n := by
    rw [List.length_take, List.length_drop]
    omega
  have hwhole : (n - n % kBlockSize) % kBlockSize = 0 :=
    Nat.sub_mod_eq_zero_of_mod_eq (Nat.mod_mod _ _).symm
  have hsub : n - n % kBlockSize ≤ n := Nat.sub_le _ _
  obtain ⟨heq, hlen⟩ := peek_of_le hwhole (p := p) (by omega)
  have hpeek : p.peek n = p.peek (n - n % kBlockSize) := by
    rw [heq, PlainFile.peek, hlength, List.take_take, min_eq_left hsub]
  exact ⟨hpeek, hpeek ▸ hlen⟩

namespace ChunkedReading

/-- No record is larger than the buffer, so there is room behind the part. -/
theorem part_lt (h : ChunkedReading settings readBlockSize w)
    (hcheck : CheckSettings settings readBlockSize) : w.part.length < readBlockSize := by
  have hstable := readRecordSize_stable_of settings hcheck.2.1
  cases hsize : readRecordSize settings w.part with
  | unknown => exact hstable.short hsize
  | invalid => exact absurd hsize h.reading.undecided
  | exact n =>
    have hle := hstable.le hsize
    have hlong : ¬n ≤ w.part.length := fun hn => h.reading.incomplete ⟨n, hsize, hn⟩
    omega

variable (handle) in
theorem readTillEnd (h : ChunkedReading settings readBlockSize w)
    (hcheck : CheckSettings settings readBlockSize) (hwhole : readBlockSize % kBlockSize = 0)
    (limit : Option ℕ) (hlimit : ∀ n, limit = some n → kBlockSize ≤ n) (s : σ) :
    ∃ r, BufferedWrapper.readTillEnd settings handle limit w s = some r ∧
      BlockResult settings handle w.unbuffered s (r.1, r.2.1.unbuffered, r.2.2) ∧
      r.2.1.Inside ∧ r.2.1.full.length = readBlockSize := by
  have hroom := h.part_lt hcheck
  have hpart := h.inside.part_length
  have hfull := h.full_length
  have hrun : w.finished = false := h.reading.running
  have htill : w.unbuffered.till = w.till.toNat := rfl
  have hpartw : w.part.length % kBlockSize = 0 := h.reading.part_whole
  have hcw : w.binlog.cursor % kBlockSize = 0 := h.reading.cursor_whole
  have htw := h.reading.till_whole
  have hct : w.binlog.cursor ≤ w.unbuffered.till := h.reading.cursor_le
  have htl : w.unbuffered.till ≤ w.binlog.data.length := h.reading.till_le
  by_cases hend : w.unbuffered.till - w.binlog.cursor = 0
  · have hnonneg := h.till_nonneg
    have hleft : w.till - w.binlog.offset = 0 := by
      change w.till - w.binlog.cursor = 0
      omega
    refine ⟨(true, w.finish 0, s), ?_, ?_, h.inside, hfull⟩
    · simp [BufferedWrapper.readTillEnd, BufferedWrapper.readPart, hrun, hleft]
    · change BlockResult settings handle w.unbuffered s (true, (w.finish 0).unbuffered, s)
      rw [h.inside.finish_unbuffered 0]
      exact h.reading.ended handle hend s
  set amount := min (w.unbuffered.till - w.binlog.cursor) (readBlockSize - w.part.length)
    with hamount
  have hamountw : amount % kBlockSize = 0 := by
    simp only [hamount, kBlockSize] at *
    omega
  have hge : kBlockSize ≤ amount := by
    simp only [hamount, kBlockSize] at *
    omega
  set count := QFile.taken limit amount with hcount
  have hcountle : count ≤ amount := min_le_right _ _
  have hcountge : kBlockSize ≤ count := by
    cases limit with
    | none => rwa [hcount, QFile.taken_none]
    | some n => exact le_min (hlimit n rfl) hge
  obtain ⟨hpeek, hpeeklen⟩ := peek_whole (p := w.binlog) (n := count) (by omega)
  have hcountw : (count - count % kBlockSize) % kBlockSize = 0 :=
    Nat.sub_mod_eq_zero_of_mod_eq (Nat.mod_mod _ _).symm
  have hcountpos : 0 < count - count % kBlockSize := by
    have hlt := Nat.mod_lt count (show 0 < kBlockSize by decide)
    omega
  have hpos : 0 < amount := by
    simp only [kBlockSize] at hge
    omega
  have hne : w.binlog.peek (QFile.taken limit amount) ≠ [] := by
    rw [← hcount]
    intro hnil
    rw [hnil, List.length_nil] at hpeeklen
    omega
  obtain ⟨w₁, hread, hunbuffered, hinside, hlength, hsize⟩ :=
    h.inside.readPart hrun limit hpos hamountw (by omega) hne
  rw [← hcount, hpeeklen, hpeek] at hunbuffered
  rw [← hcount, hpeek] at hsize
  obtain ⟨hloop, hinside', hlength'⟩ :=
    hinside.handleRecords settings handle (w₁.partSize + 1) s
  have hblock := h.reading.handleRecords handle hcountpos hcountw (by
    change w.binlog.cursor + _ ≤ _
    omega) s
  refine ⟨BufferedWrapper.handleRecords settings handle (w₁.partSize + 1) w₁ s, ?_, ?_, hinside',
    ?_⟩
  · simp only [BufferedWrapper.readTillEnd, hread, Option.bind_eq_bind, Option.bind_some, if_true]
  · rw [hloop, hunbuffered, hsize]
    exact hblock
  · rw [hlength', hlength, hfull]

variable (handle) in
/-- The loop ends, and has handed over the records of all that was unread. -/
theorem readAll (h : ChunkedReading settings readBlockSize w)
    (hcheck : CheckSettings settings readBlockSize) (hwhole : readBlockSize % kBlockSize = 0)
    {limits : ℕ → Option ℕ} (hlimits : ∀ i n, limits i = some n → kBlockSize ≤ n) {fuel : ℕ}
    (hfuel : w.unbuffered.till - w.binlog.cursor + 1 < fuel) (s : σ) :
    let outcome := feed handle (records (readRecordSize settings) w.unbuffered.unread) s
    ∃ w', BufferedWrapper.readAll settings handle fuel limits w s = some (true, w', outcome.1) ∧
      w'.binlog = w.binlog.seek (w.unbuffered.position + outcome.2.flatten.length) := by
  induction fuel generalizing w limits s with
  | zero => omega
  | succ fuel ih =>
    obtain ⟨⟨done, w', s'⟩, hread, hblock, hinside, hfull⟩ :=
      h.readTillEnd handle hcheck hwhole (limits 0) (hlimits 0) s
    simp only [BufferedWrapper.readAll, hread, Option.bind_eq_bind, Option.bind_some]
    simp only at hblock
    generalize hunbuffered : w'.unbuffered = u at hblock
    cases hblock with
    | ended hdone hbinlog =>
      have hbinlog' : w'.binlog = _ := (congrArg BinlogWrapper.binlog hunbuffered).trans hbinlog
      cases done with
      | true => exact ⟨w', rfl, hbinlog'⟩
      | false =>
        have hfinished : w'.finished = true :=
          (congrArg BinlogWrapper.finished hunbuffered).trans (hdone.resolve_left (by simp))
        obtain ⟨f, rfl⟩ : ∃ f, fuel = f + 1 := ⟨fuel - 1, by omega⟩
        refine ⟨w', ?_, hbinlog'⟩
        simp [BufferedWrapper.readAll, BufferedWrapper.readTillEnd, BufferedWrapper.readPart,
          hfinished]
    | @more _ rs hreading hrecords haccepted hposition hbinlog hforward htill =>
      subst hunbuffered
      have hcursor := hreading.cursor_le
      have hchunked : ChunkedReading settings readBlockSize w' := {
        reading := hreading
        inside := hinside
        full_length := hfull
        till_nonneg := by
          have htoNat : w'.unbuffered.till = w'.till.toNat := rfl
          omega }
      have hforward' : w.binlog.cursor < w'.binlog.cursor := hforward
      have hcursor' : w'.binlog.cursor ≤ w'.unbuffered.till := hcursor
      obtain ⟨w'', hrun, hend⟩ := ih hchunked
        (show ∀ i n, limits (i + 1) = some n → kBlockSize ≤ n from fun i => hlimits (i + 1))
        (by omega) (feed handle rs s).1
      have hfeed := feed_append (records (readRecordSize settings) w'.unbuffered.unread) haccepted
      rw [← hrecords] at hfeed
      simp only [hfeed]
      refine ⟨w'', hrun, ?_⟩
      have hbinlog' : w'.binlog = w.binlog.seek w'.binlog.cursor := hbinlog
      rw [hend, hposition, List.flatten_append, List.length_append, hbinlog']
      simp only [PlainFile.seek, Nat.add_assoc]


end ChunkedReading

namespace BufferedWrapper

/-- Settings for a log without times and with one key in a bundle. -/
def smallSettings : Settings :=
  { Settings.initial with
    maxBundledRecords := 1
    readBlockSize := 64
    trackEstimatedTime := false
    maxBundledRecords_pos := by decide
    maxBundledRecords_lt := by decide
    readBlockSize_ge := by decide
    readBlockSize_whole := by decide }

/-- A handler that writes down what it is given. -/
def noted (bytes : List UInt8) (seen : List (List UInt8)) : Bool × List (List UInt8) :=
  (true, seen ++ [bytes])

/-- A log of two records, and half of a third one. -/
def smallLog : PlainFile where
  data := 0x01 :: List.replicate 31 7 ++ 0x01 :: List.replicate 31 8 ++ 0x01 :: List.replicate 15 9
  cursor := 0
  mode := some .readWrite

end BufferedWrapper

end Bettergram.Storage.Cache
