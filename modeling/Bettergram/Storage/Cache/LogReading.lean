import Bettergram.Storage.Cache.LogCodec

/-! # Reading block by block

The reader hands the records of the whole log to the handler, in order, until
one is refused or cannot be read, and leaves the cursor of the file behind the
last record that was accepted. Neither depends on the size of the blocks.
-/

namespace Bettergram.Storage.Cache
open Foundation

variable (settings : Settings)

/-- What the reader has not cut into records yet. -/
def BinlogWrapper.unread (w : BinlogWrapper) : List UInt8 :=
  w.part ++ (w.binlog.data.drop w.binlog.cursor).take (w.till - w.binlog.cursor)

/-- Where the unread bytes start in the file. -/
def BinlogWrapper.position (w : BinlogWrapper) : ℕ := w.binlog.cursor - w.part.length

/-- Between two blocks: no record is complete in the part, and none is known to be bad. -/
structure Reading (w : BinlogWrapper) : Prop where
  running : w.finished = false
  incomplete : ¬HasRecord (readRecordSize settings) w.part
  undecided : readRecordSize settings w.part ≠ .invalid
  part_whole : w.part.length % kBlockSize = 0
  part_le : w.part.length ≤ w.binlog.cursor
  cursor_whole : w.binlog.cursor % kBlockSize = 0
  till_whole : w.till % kBlockSize = 0
  cursor_le : w.binlog.cursor ≤ w.till
  till_le : w.till ≤ w.binlog.data.length

variable {settings} {σ : Type} {handle : List UInt8 → σ → Bool × σ} {w : BinlogWrapper} {s : σ}

theorem Reading.part_lt (h : Reading settings w) : w.part.length < settings.readBlockSize := by
  have hstable := readRecordSize_stable settings
  cases hsize : readRecordSize settings w.part with
  | unknown => exact hstable.short hsize
  | invalid => exact absurd hsize h.undecided
  | exact n =>
    have hle := hstable.le hsize
    have hlong : ¬n ≤ w.part.length := fun hn => h.incomplete ⟨n, hsize, hn⟩
    omega

/-- The ways a block can end, with the accepted records `rs`. -/
inductive PartResult (settings : Settings) (w : BinlogWrapper) :
    List (List UInt8) → List (List UInt8) → Bool × BinlogWrapper → Prop
  | refused {rs accepted w'} (hne : accepted ≠ rs)
      (hbinlog : w'.binlog = w.binlog.seek (w.position + accepted.flatten.length)) :
      PartResult settings w rs accepted (true, w')
  | invalid {rs w'} (hbad : readRecordSize settings (leftover (readRecordSize settings) w.part) =
        .invalid) (hfinished : w'.finished = true)
      (hbinlog : w'.binlog = w.binlog.seek (w.position + rs.flatten.length)) :
      PartResult settings w rs rs (false, w')
  | more {rs} (hgood : readRecordSize settings (leftover (readRecordSize settings) w.part) ≠
        .invalid) :
      PartResult settings w rs rs
        (false, { w with part := leftover (readRecordSize settings) w.part })

/-- A record in front of the part does not change how the rest ends. -/
theorem PartResult.cons {bs : List UInt8} {n : ℕ} (hn : readRecordSize settings bs = .exact n)
    (hle : n ≤ bs.length) (hcursor : bs.length ≤ w.binlog.cursor)
    {accepted : List (List UInt8)} {r : Bool × BinlogWrapper}
    (h : PartResult settings { w with part := bs.drop n }
      (records (readRecordSize settings) (bs.drop n)) accepted r) :
    PartResult settings { w with part := bs } (records (readRecordSize settings) bs)
      (bs.take n :: accepted) r := by
  obtain ⟨hcut, hleft⟩ := (readRecordSize_stable settings).cut_cons hn hle
  have hpos : ∀ k, w.binlog.cursor - (bs.drop n).length + k =
      w.binlog.cursor - bs.length + (n + k) := by
    intro k
    rw [List.length_drop]
    omega
  have htake : (bs.take n).length = n := by
    rw [List.length_take]
    omega
  rw [hcut]
  cases h with
  | refused hne hbinlog =>
    refine .refused (by simpa using hne) ?_
    rw [hbinlog, List.flatten_cons, List.length_append, htake]
    simp only [BinlogWrapper.position, hpos]
  | invalid hbad hfinished hbinlog =>
    refine .invalid (by rwa [hleft]) hfinished ?_
    rw [hbinlog, List.flatten_cons, List.length_append, htake]
    simp only [BinlogWrapper.position, hpos]
  | more hgood =>
    rw [← hleft]
    exact PartResult.more (w := { w with part := bs }) (by rwa [hleft])

variable (settings handle) in
theorem handleRecords_spec (w : BinlogWrapper) (hrun : w.finished = false) (bs : List UInt8)
    (hcursor : bs.length ≤ w.binlog.cursor) {fuel : ℕ} (hfuel : bs.length < fuel) (s : σ) :
    let r := BinlogReader.handleRecords settings handle fuel { w with part := bs } s
    r.2.2 = (feed handle (records (readRecordSize settings) bs) s).1 ∧
      PartResult settings { w with part := bs } (records (readRecordSize settings) bs)
        (feed handle (records (readRecordSize settings) bs) s).2 (r.1, r.2.1) := by
  have hstable := readRecordSize_stable settings
  induction bs using hstable.induction_on generalizing fuel s with
  | stop bs hno =>
    obtain ⟨f, rfl⟩ : ∃ f, fuel = f + 1 := ⟨fuel - 1, by omega⟩
    rw [records_of_not_hasRecord hno]
    have hleft := leftover_of_not_hasRecord hno
    have hnothing : readRecordSize settings bs ≠ .invalid →
        BinlogWrapper.readRecord settings { w with part := bs } = ([], { w with part := bs }) := by
      intro hgood
      cases hsize : readRecordSize settings bs with
      | unknown => simp [BinlogWrapper.readRecord, hrun, hsize]
      | invalid => exact absurd hsize hgood
      | exact n =>
        have hshort : bs.length < n := by
          by_contra hle
          exact hno ⟨n, hsize, by omega⟩
        simp [BinlogWrapper.readRecord, hrun, hsize, hshort]
    by_cases hgood : readRecordSize settings bs = .invalid
    · have hread : BinlogWrapper.readRecord settings { w with part := bs } =
          ([], { BinlogWrapper.finish 0 { w with part := bs } with
            finished := true, failed := true }) := by
        simp [BinlogWrapper.readRecord, hrun, hgood]
      simp only [BinlogReader.handleRecords, hread, feed]
      exact ⟨trivial, .invalid (by rw [hleft, hgood]) rfl (by
        simp [BinlogWrapper.finish, BinlogWrapper.position, PlainFile.offset])⟩
    · simp only [BinlogReader.handleRecords, hnothing hgood, feed]
      have hmore : PartResult settings { w with part := bs } [] [] (false, { w with
          part := leftover (readRecordSize settings) bs }) := .more (by rwa [hleft])
      rw [hleft] at hmore
      exact ⟨trivial, hmore⟩
  | record bs n hn hle ih =>
    obtain ⟨f, rfl⟩ : ∃ f, fuel = f + 1 := ⟨fuel - 1, by omega⟩
    have hpos := hstable.pos hn
    have hdrop : (bs.drop n).length = bs.length - n := List.length_drop
    have htake : (bs.take n).length = n := by
      rw [List.length_take]
      omega
    have hread : BinlogWrapper.readRecord settings { w with part := bs } =
        (bs.take n, { w with part := bs.drop n }) := by
      simp only [BinlogWrapper.readRecord, hrun, hn]
      rw [if_neg (by simp), if_neg (by omega)]
    obtain ⟨b, rest, hb⟩ : ∃ b rest, bs.take n = b :: rest := by
      cases hb : bs.take n with
      | nil =>
        rw [hb, List.length_nil] at htake
        omega
      | cons b rest => exact ⟨b, rest, rfl⟩
    have hcut := (hstable.cut_cons hn hle).1
    rcases hhandle : handle (bs.take n) s with ⟨_ | _, s'⟩
    · have hloop : BinlogReader.handleRecords settings handle (f + 1) { w with part := bs } s =
          (true, BinlogWrapper.finish n { w with part := bs.drop n }, s') := by
        simp only [BinlogReader.handleRecords, hread]
        rw [hb] at hhandle htake ⊢
        simp only [hhandle, htake]
      rw [hloop, hcut, feed, hhandle]
      refine ⟨rfl, .refused (by simp) ?_⟩
      have hback : w.binlog.cursor - (n + (bs.length - n)) = w.binlog.cursor - bs.length := by
        rw [Nat.add_sub_cancel' hle]
      simp [BinlogWrapper.finish, BinlogWrapper.position, PlainFile.offset, hback]
    · have hloop : BinlogReader.handleRecords settings handle (f + 1) { w with part := bs } s =
          BinlogReader.handleRecords settings handle f { w with part := bs.drop n } s' := by
        simp only [BinlogReader.handleRecords, hread]
        rw [hb] at hhandle ⊢
        simp only [hhandle]
      have hlen : (bs.drop n).length < f := by omega
      obtain ⟨hstate, hresult⟩ := ih (by omega) hlen s'
      have hcons := hresult.cons hn hle hcursor
      rw [hloop]
      refine ⟨?_, ?_⟩
      · rw [hcut, feed, hhandle, hstate]
      · rw [hcut] at hcons ⊢
        rwa [feed, hhandle]

/-- Whole blocks before the end are read in full. -/
theorem peek_of_le {p : PlainFile} {n : ℕ} (hn : n % kBlockSize = 0)
    (hle : p.cursor + n ≤ p.data.length) :
    p.peek n = (p.data.drop p.cursor).take n ∧ (p.peek n).length = n := by
  have hlen : ((p.data.drop p.cursor).take n).length = n := by
    simp only [List.length_take, List.length_drop]
    omega
  have hpeek : p.peek n = (p.data.drop p.cursor).take n := by
    rw [PlainFile.peek, hlen, hn, Nat.sub_zero]
    exact List.take_of_length_le hlen.le
  exact ⟨hpeek, hpeek ▸ hlen⟩

/-- What one call of `readTillEnd` does between two blocks: it ends the reading with the
outcome of the whole log, or hands over some records and leaves a shorter log. -/
inductive BlockResult (settings : Settings) (handle : List UInt8 → σ → Bool × σ)
    (w : BinlogWrapper) (s : σ) : Bool × BinlogWrapper × σ → Prop
  | ended {done w'} (hdone : done = true ∨ w'.finished = true)
      (hbinlog : w'.binlog = w.binlog.seek (w.position +
        (feed handle (records (readRecordSize settings) w.unread) s).2.flatten.length)) :
      BlockResult settings handle w s
        (done, w', (feed handle (records (readRecordSize settings) w.unread) s).1)
  | more {w'} {rs : List (List UInt8)} (hreading : Reading settings w')
      (hrecords : records (readRecordSize settings) w.unread =
        rs ++ records (readRecordSize settings) w'.unread)
      (haccepted : (feed handle rs s).2 = rs)
      (hposition : w'.position = w.position + rs.flatten.length)
      (hbinlog : w'.binlog = w.binlog.seek w'.binlog.cursor)
      (hforward : w.binlog.cursor < w'.binlog.cursor) (htill : w'.till = w.till) :
      BlockResult settings handle w s (false, w', (feed handle rs s).1)

variable (handle) in
/-- Nothing is left to read: the part has no records. -/
theorem Reading.ended (h : Reading settings w) (hend : w.till - w.binlog.cursor = 0) (s : σ) :
    BlockResult settings handle w s (true, w.finish 0, s) := by
  have hunread : w.unread = w.part := by simp [BinlogWrapper.unread, hend]
  have hrecords : records (readRecordSize settings) w.unread = [] := by
    rw [hunread, records_of_not_hasRecord h.incomplete]
  have hended : BlockResult settings handle w s (true, w.finish 0,
      (feed handle (records (readRecordSize settings) w.unread) s).1) := .ended (.inl rfl) (by
        simp [hrecords, feed, BinlogWrapper.finish, BinlogWrapper.position, PlainFile.offset])
  rwa [hrecords, feed] at hended

variable (handle) in
/-- What the loop over the records does once some whole blocks are read. -/
theorem Reading.handleRecords (h : Reading settings w) {amount : ℕ} (hpos : 0 < amount)
    (hamountw : amount % kBlockSize = 0) (hamount : w.binlog.cursor + amount ≤ w.till) (s : σ) :
    BlockResult settings handle w s (BinlogReader.handleRecords settings handle
      ((w.part ++ w.binlog.peek amount).length + 1)
      { w with
        binlog := w.binlog.seek (w.binlog.cursor + amount)
        part := w.part ++ w.binlog.peek amount } s) := by
  have hstable := readRecordSize_stable settings
  obtain ⟨hrun, hincomplete, hundecided, hpartw, hpartle, hcw, htw, hct, htl⟩ := h
  obtain ⟨hpeek, hpeeklen⟩ := peek_of_le (p := w.binlog) hamountw (by omega)
  set bytes := w.binlog.peek amount with hbytes
  -- the wrapper after the block has been read
  set w₁ : BinlogWrapper := { w with binlog := w.binlog.seek (w.binlog.cursor + amount) } with hw₁
  have hpartlen : (w.part ++ bytes).length = w.part.length + amount := by
    rw [List.length_append, hpeeklen]
  have hcursor₁ : w₁.binlog.cursor = w.binlog.cursor + amount := rfl
  have hloop := handleRecords_spec settings handle w₁ hrun (w.part ++ bytes)
    (by rw [hpartlen, hcursor₁]; omega) (Nat.lt_succ_self _) s
  have hunread : w.unread = (w.part ++ bytes) ++
      (w.binlog.data.drop (w.binlog.cursor + amount)).take (w.till - (w.binlog.cursor + amount)) := by
    have hsplit : w.till - w.binlog.cursor = amount + (w.till - (w.binlog.cursor + amount)) := by
      omega
    rw [BinlogWrapper.unread, hsplit, List.take_add, List.drop_drop, hpeek, List.append_assoc]
  set rest := (w.binlog.data.drop (w.binlog.cursor + amount)).take
    (w.till - (w.binlog.cursor + amount)) with hrest
  obtain ⟨hcut, -⟩ := hstable.cut_append (w.part ++ bytes) rest
  have hposition : BinlogWrapper.position { w₁ with part := w.part ++ bytes } = w.position := by
    change w.binlog.cursor + amount - (w.part ++ bytes).length = w.binlog.cursor - w.part.length
    rw [hpartlen]
    omega
  change BlockResult settings handle w s (BinlogReader.handleRecords settings handle
    ((w.part ++ bytes).length + 1) { w₁ with part := w.part ++ bytes } s)
  generalize BinlogReader.handleRecords settings handle ((w.part ++ bytes).length + 1)
    { w₁ with part := w.part ++ bytes } s = result at hloop ⊢
  obtain ⟨done, w', s'⟩ := result
  obtain ⟨hstate, hresult⟩ := hloop
  generalize haccepted : (feed handle (records (readRecordSize settings) (w.part ++ bytes)) s).2 =
    accepted at hresult
  generalize hrs : records (readRecordSize settings) (w.part ++ bytes) = rs at *
  change s' = _ at hstate
  subst hstate
  cases hresult with
  | refused hrefused hbinlog =>
    have hfeed := feed_append_of_refused
      (records (readRecordSize settings) (leftover (readRecordSize settings) (w.part ++ bytes) ++ rest))
      (haccepted ▸ hrefused)
    rw [← hcut, ← hunread] at hfeed
    rw [← hfeed]
    refine .ended (.inl rfl) ?_
    change w'.binlog = _ at hbinlog
    rw [hbinlog, hfeed, haccepted, hposition]
    rfl
  | invalid hbad hfinished hbinlog =>
    have hnone : records (readRecordSize settings)
        (leftover (readRecordSize settings) (w.part ++ bytes) ++ rest) = [] := by
      apply records_of_not_hasRecord
      rintro ⟨n, hn, -⟩
      rw [hstable.invalid_append rest hbad] at hn
      cases hn
    rw [hnone, List.append_nil, ← hunread] at hcut
    rw [← hcut]
    refine .ended (.inr hfinished) ?_
    change w'.binlog = _ at hbinlog
    rw [hbinlog, hcut, haccepted, hposition]
    rfl
  | more hgood =>
    set left := leftover (readRecordSize settings) (w.part ++ bytes) with hleft
    have hlen : accepted.flatten.length + left.length = w.part.length + amount := by
      rw [← hpartlen, ← hrs, hleft, ← List.length_append, hstable.flatten_records]
    have hleftw : left.length % kBlockSize = 0 := by
      rw [hleft, hstable.length_leftover_mod (fun h => readRecordSize_mod settings h), hpartlen,
        Nat.add_mod, hpartw, hamountw]
      rfl
    refine .more ?_ ?_ haccepted ?_ rfl ?_ rfl
    · exact {
        running := hrun
        incomplete := hstable.not_hasRecord_leftover _
        undecided := hgood
        part_whole := hleftw
        part_le := by
          change left.length ≤ w.binlog.cursor + amount
          omega
        cursor_whole := by
          change (w.binlog.cursor + amount) % kBlockSize = 0
          rw [Nat.add_mod, hcw, hamountw]
          rfl
        till_whole := htw
        cursor_le := by
          change w.binlog.cursor + amount ≤ w.till
          omega
        till_le := htl }
    · rw [hunread, hcut]
      rfl
    · change w.binlog.cursor + amount - left.length = _
      rw [BinlogWrapper.position]
      omega
    · change w.binlog.cursor < w.binlog.cursor + amount
      omega

variable (handle) in
theorem Reading.readTillEnd (h : Reading settings w) (s : σ) :
    BlockResult settings handle w s (BinlogReader.readTillEnd settings handle w s) := by
  have hpart := h.part_lt
  have hblock := settings.readBlockSize_whole
  have hpartw := h.part_whole
  have hcw := h.cursor_whole
  have htw := h.till_whole
  have htl := h.till_le
  by_cases hend : w.till - w.binlog.cursor = 0
  · have hread : BinlogReader.readTillEnd settings handle w s = (true, w.finish 0, s) := by
      simp [BinlogReader.readTillEnd, BinlogWrapper.readPart, h.running, PlainFile.offset, hend]
    rw [hread]
    exact h.ended handle hend s
  set amount := min (w.till - w.binlog.cursor) (settings.readBlockSize - w.part.length) with hamount
  have hamountw : amount % kBlockSize = 0 := by
    simp only [hamount, kBlockSize] at *
    omega
  have hpos : 0 < amount := by omega
  have hpeeklen := (peek_of_le (p := w.binlog) hamountw (by omega)).2
  have hne : w.binlog.peek amount ≠ [] := by
    intro hnil
    rw [hnil, List.length_nil] at hpeeklen
    omega
  have hread : w.readPart settings = (true, { w with
      binlog := w.binlog.seek (w.binlog.cursor + amount)
      part := w.part ++ w.binlog.peek amount }) := by
    simp [BinlogWrapper.readPart, h.running, PlainFile.offset, hend, PlainFile.read, ← hamount,
      hne, hpeeklen, PlainFile.seek]
  rw [BinlogReader.readTillEnd, hread]
  exact h.handleRecords handle hpos hamountw (by omega) s

variable (handle) in
/-- Reading a log to its end: the handler has seen its records up to the first refused one, and
the cursor is behind the last record accepted. -/
theorem Reading.readAll (h : Reading settings w) {fuel : ℕ}
    (hfuel : w.till - w.binlog.cursor + 1 < fuel) (s : σ) :
    let outcome := feed handle (records (readRecordSize settings) w.unread) s
    let result := BinlogReader.readAll settings handle fuel w s
    result.2 = outcome.1 ∧
      result.1.binlog = w.binlog.seek (w.position + outcome.2.flatten.length) := by
  induction fuel generalizing w s with
  | zero => omega
  | succ fuel ih =>
    have hblock := h.readTillEnd handle s
    intro outcome result
    have hresult : result = BinlogReader.readAll settings handle (fuel + 1) w s := rfl
    rw [BinlogReader.readAll] at hresult
    clear_value result
    generalize BinlogReader.readTillEnd settings handle w s = block at hblock hresult
    subst hresult
    cases hblock with
    | @ended done w' hdone hbinlog =>
      have hstop : BinlogReader.readAll settings handle fuel w' outcome.1 = (w', outcome.1) ∨
          done = true := by
        rcases hdone with hdone | hfinished
        · exact .inr hdone
        · obtain ⟨f, rfl⟩ : ∃ f, fuel = f + 1 := ⟨fuel - 1, by omega⟩
          left
          simp [BinlogReader.readAll, BinlogReader.readTillEnd, BinlogWrapper.readPart, hfinished]
      cases done with
      | true => exact ⟨rfl, hbinlog⟩
      | false =>
        have hstop := hstop.resolve_right (by simp)
        change (BinlogReader.readAll settings handle fuel w' outcome.1).2 = _ ∧
          (BinlogReader.readAll settings handle fuel w' outcome.1).1.binlog = _
        rw [hstop]
        exact ⟨rfl, hbinlog⟩
    | @more w' rs hreading hrecords haccepted hposition hbinlog hforward htill =>
      have hcursor := hreading.cursor_le
      have hih := ih hreading (by omega) (feed handle rs s).1
      have hfeed := feed_append (records (readRecordSize settings) w'.unread) haccepted
      rw [← hrecords] at hfeed
      simp only [outcome, hfeed]
      refine ⟨hih.1, ?_⟩
      rw [hih.2, hposition, List.flatten_append, List.length_append, hbinlog]
      simp only [PlainFile.seek, Nat.add_assoc]

end Bettergram.Storage.Cache
