import Bettergram.Storage.Cache.Compacting

/-! # Compaction does not change the log

Between the calls of the database the compactor reads the keys of the old log,
asks for their entries and writes them. When the log is replaced in the end, the
new one says the same as the old one, whatever came in between and whichever
operations failed.
-/

namespace Bettergram.Storage.Cache
open Foundation DatabaseObject

variable {settings : Settings} {xxh32 : List UInt8 → UInt32} {head kept kept₀ more : List UInt8}
  {rs rs₀ ts : List Record} {db db' : DatabaseObject} {c c' : CompactorObject}

/-! ## The keys of the old log -/

/-- More log behind the end of a reader does not matter to it. -/
theorem Reading.grow {w : BinlogWrapper} (h : Reading settings w) (bytes : List UInt8) :
    let grown := { w with binlog := { w.binlog with data := w.binlog.data ++ bytes } }
    Reading settings grown ∧ grown.unread = w.unread := by
  have hcursor := h.cursor_le
  have htill := h.till_le
  refine ⟨?_, ?_⟩
  · exact { h with
      till_le := by
        change w.till ≤ (w.binlog.data ++ bytes).length
        rw [List.length_append]
        omega }
  · change w.part ++ ((w.binlog.data ++ bytes).drop w.binlog.cursor).take
      (w.till - w.binlog.cursor) = w.unread
    rw [BinlogWrapper.unread, List.drop_append_of_le_length (by omega),
      List.take_append_of_le_length (by rw [List.length_drop]; omega)]

namespace CompactorObject

/-- Every key of the old log was asked for, or is still to be read. -/
def Reads (settings : Settings) (kept₀ log : List UInt8) (asked : List Key) (c : CompactorObject) :
    Prop :=
  (∀ key ∈ storeKeys settings kept₀, key ∈ asked) ∨
    Reading settings (c.refresh log).wrapper ∧
      ∀ key ∈ storeKeys settings kept₀,
        key ∈ asked ∨ key ∈ storeKeys settings (c.refresh log).wrapper.unread

variable {log : List UInt8} {asked : List Key}

theorem Reads.congr (h : Reads settings kept₀ log asked c) (hwrapper : c'.wrapper = c.wrapper) :
    Reads settings kept₀ log asked c' := by
  unfold Reads CompactorObject.refresh at *
  rwa [hwrapper]

theorem Reads.grow (h : Reads settings kept₀ log asked c) (bytes : List UInt8) :
    Reads settings kept₀ (log ++ bytes) asked c := by
  rcases h with hall | ⟨hreading, hkeys⟩
  · exact .inl hall
  · obtain ⟨hgrown, hunread⟩ := hreading.grow bytes
    refine .inr ⟨hgrown, fun key hkey => ?_⟩
    rw [show (c.refresh (log ++ bytes)).wrapper.unread = (c.refresh log).wrapper.unread from hunread]
    exact hkeys key hkey

/-- What a chunk leads to: keys to ask for, or no more keys. -/
theorem Reads.parseChunk (h : Reads settings kept₀ log asked c)
    (hparse : c.parseChunk settings log = some c') :
    ∃ wrapper, (∃ keys, c' = { c with wrapper, state := .asking keys } ∧
        Reads settings kept₀ log (asked ++ keys) c') ∨
      c' = { ({ c with wrapper } : CompactorObject).writeList settings with
          state := .catchingUp c.info.till 0 } ∧
        ∀ key ∈ storeKeys settings kept₀, key ∈ asked := by
  unfold CompactorObject.parseChunk at hparse
  dsimp only at hparse
  generalize hread : readChunk settings ((c.refresh log).wrapper.till + 2) (c.refresh log).wrapper [] =
    read at hparse
  obtain ⟨wrapper, keys⟩ := read
  dsimp only at hparse
  refine ⟨wrapper, ?_⟩
  -- the keys of the chunk and what is left after it
  have hafter : (∀ key ∈ storeKeys settings kept₀, key ∈ asked ++ keys) ∨
      keys ≠ [] ∧ Reading settings wrapper ∧ wrapper.binlog.data = log ∧
        ∀ key ∈ storeKeys settings kept₀,
          key ∈ asked ++ keys ∨ key ∈ storeKeys settings wrapper.unread := by
    rcases h with hall | ⟨hreading, hkeys⟩
    · exact .inl fun key hkey => List.mem_append_left _ (hall key hkey)
    · obtain ⟨-, hspec⟩ := readChunk_spec hreading
        (show (c.refresh log).wrapper.till - (c.refresh log).wrapper.binlog.cursor + 1 <
          (c.refresh log).wrapper.till + 2 by omega) []
      rw [hread] at hspec
      rcases hspec with hdone | ⟨hreading', -, hdata, hne, hmore⟩
      · left
        intro key hkey
        rw [List.mem_append]
        exact (hkeys key hkey).imp id (hdone key)
      · refine .inr ⟨hne, hreading', hdata, fun key hkey => ?_⟩
        rw [List.mem_append, or_assoc]
        exact (hkeys key hkey).imp id (hmore key)
  split at hparse
  · cases hparse
  · split at hparse
    · next hnil =>
      cases hparse
      subst hnil
      refine .inr ⟨rfl, fun key hkey => ?_⟩
      rcases hafter with hall | ⟨hne, -⟩
      · simpa using hall key hkey
      · exact absurd rfl hne
    · cases hparse
      refine .inl ⟨keys, rfl, hafter.imp id ?_⟩
      rintro ⟨-, hreading, hdata, hkeys⟩
      have hrefresh : ∀ w : BinlogWrapper, w.binlog.data = log →
          ({ w with binlog := { w.binlog with data := log } } : BinlogWrapper) = w := by
        rintro w rfl
        rfl
      refine ⟨?_, ?_⟩
      · change Reading settings { wrapper with binlog := { wrapper.binlog with data := log } }
        rwa [hrefresh wrapper hdata]
      · change ∀ key ∈ storeKeys settings kept₀, key ∈ asked ++ keys ∨ key ∈ storeKeys settings
          ({ wrapper with binlog := { wrapper.binlog with data := log } } : BinlogWrapper).unread
        rwa [hrefresh wrapper hdata]

theorem readHeader_cursor {data : List UInt8} {header : BasicHeader} {binlog : PlainFile}
    (h : BinlogWrapper.readHeader settings { data, cursor := 0, mode := some .readOnly } =
      (some header, binlog)) : binlog = { data, cursor := 16, mode := some .readOnly } := by
  unfold BinlogWrapper.readHeader at h
  dsimp only [PlainFile.offset, PlainFile.read] at h
  simp only [ne_eq, not_true_eq_false, if_false] at h
  split at h
  · next hheader =>
    cases h
    rw [hheader.1]
  · cases h

variable (settings) in
/-- The reader of an old log behind its header. -/
theorem reading_old {rest : List UInt8} (hhead : head.length = 16)
    (hwhole : kept₀.length % kBlockSize = 0) (hlog : log = head ++ kept₀ ++ rest) :
    let w : BinlogWrapper := {
      binlog := { data := log, cursor := 16, mode := some .readOnly }
      till := 16 + kept₀.length
      part := []
      finished := false
      failed := false }
    Reading settings w ∧ w.unread = kept₀ := by
  intro w
  refine ⟨?_, ?_⟩
  · exact {
      running := rfl
      incomplete := by
        rintro ⟨n, hn, -⟩
        cases hn
      undecided := by
        change FrontSize.unknown ≠ .invalid
        simp
      part_whole := rfl
      part_le := Nat.zero_le _
      cursor_whole := by
        change 16 % kBlockSize = 0
        rfl
      till_whole := by
        change (16 + kept₀.length) % kBlockSize = 0
        rw [Nat.add_mod, hwhole]
        rfl
      cursor_le := Nat.le_add_right 16 _
      till_le := by
        change 16 + kept₀.length ≤ log.length
        simp only [hlog, List.length_append, hhead]
        omega }
  · change ([] : List UInt8) ++ (log.drop 16).take (16 + kept₀.length - 16) = kept₀
    rw [Nat.add_sub_cancel_left, hlog, List.append_assoc, ← hhead, List.drop_left, List.take_left,
      List.nil_append]

/-- The reader of the old log starts behind its header. -/
theorem Reads.start {rest : List UInt8} (hhead : head.length = 16)
    (hwhole : kept₀.length % kBlockSize = 0) (hlog : log = head ++ kept₀ ++ rest)
    (htill : c.info.till = 16 + kept₀.length) (hstart : c.start settings log = some c') :
    ∃ wrapper, ({ c with wrapper, compact := head } : CompactorObject).parseChunk settings log =
        some c' ∧
      Reads settings kept₀ log [] { c with wrapper, compact := head } := by
  unfold CompactorObject.start at hstart
  dsimp only at hstart
  split at hstart
  · cases hstart
  · split at hstart
    · cases hstart
    · next header binlog hheader =>
      obtain rfl := readHeader_cursor hheader
      have htake : log.take 16 = head := by
        rw [hlog, List.append_assoc, ← hhead, List.take_left]
      have hcreate : ∀ file, BinlogWrapper.create file c.info.till =
          ⟨file, 16 + kept₀.length, [], false, false⟩ := fun file => by
        rw [BinlogWrapper.create, if_neg (by omega), htill]
      rw [htake, hcreate] at hstart
      obtain ⟨hreading, hunread⟩ := reading_old settings hhead hwhole hlog
      refine ⟨_, hstart, .inr ⟨hreading, fun key hkey => .inr ?_⟩⟩
      exact hunread.symm ▸ hkey

/-! ## Copying what came behind -/

theorem copyBlocks_spec {fuel : ℕ} {binlog : PlainFile} {compact copied : List UInt8}
    (hwhole : binlog.data.length % kBlockSize = 0) (hcursor : binlog.cursor % kBlockSize = 0)
    (hle : binlog.cursor ≤ binlog.data.length)
    (h : copyBlocks settings fuel binlog binlog.data.length compact = some copied) :
    copied = compact ++ binlog.data.drop binlog.cursor := by
  induction fuel generalizing binlog compact with
  | zero => cases h
  | succ fuel ih =>
    have hblock := settings.readBlockSize_whole
    rw [copyBlocks] at h
    dsimp only at h
    set limit := min (binlog.data.length - binlog.cursor) settings.readBlockSize with hlimit
    obtain ⟨hpeek, hlength⟩ := peek_of_le (p := binlog) (n := limit)
      (by simp only [hlimit, kBlockSize] at *; omega) (by omega)
    rw [PlainFile.read, hlength, hpeek] at h
    dsimp only at h
    split at h
    · cases h
    · split at h
      · next hend =>
        cases h
        rw [List.take_of_length_le (by rw [List.length_drop]; omega)]
      · have hnext := ih (show ({ binlog with cursor := binlog.cursor + limit } :
            PlainFile).data.length % kBlockSize = 0 from hwhole)
          (by simp only [hlimit, kBlockSize] at *; omega) (by dsimp only; omega) h
        rw [hnext, List.append_assoc]
        congr 1
        dsimp only
        rw [← List.drop_drop, List.take_append_drop]

theorem size_of_whole {p : PlainFile} (hopen : p.mode.isSome = true)
    (hwhole : p.data.length % kBlockSize = 0) : p.size = p.data.length := by
  rw [PlainFile.size, if_pos hopen, hwhole, Nat.sub_zero]

/-- A copy reaches the end of the log. -/
theorem catchUp_spec {start till : ℕ} {compact copied : List UInt8}
    (hwhole : log.length % kBlockSize = 0) (hstart : start % kBlockSize = 0)
    (h : catchUp settings log start compact = some (till, copied)) :
    till = log.length ∧ start ≤ till ∧ copied = compact ++ log.drop start := by
  have hsize := size_of_whole (p := { data := log, cursor := 0, mode := some .readOnly }) rfl hwhole
  unfold catchUp at h
  simp only [hsize] at h
  split at h
  · next heq =>
    cases h
    refine ⟨rfl, by omega, ?_⟩
    rw [List.drop_of_length_le (by omega), List.append_nil]
  · split at h
    · cases h
    · next hne hlt =>
      obtain ⟨copied, hcopied, heq⟩ := Option.map_eq_some_iff.mp h
      cases heq
      refine ⟨rfl, by omega, ?_⟩
      exact copyBlocks_spec (show ({ data := log, cursor := start, mode := some .readOnly } :
        PlainFile).data.length % kBlockSize = 0 from hwhole) hstart (by dsimp only; omega) hcopied

end CompactorObject

/-! ## The compactor over a run -/

/-- The log that a compactor was started on, and what came behind it since. -/
structure OldLog (settings : Settings) (kept : List UInt8) (rs : List Record) (till : ℕ)
    (kept₀ more : List UInt8) (rs₀ ts : List Record) : Prop where
  kept : kept = kept₀ ++ more
  records : rs = rs₀ ++ ts
  old : IsLog settings kept₀ rs₀
  since : IsLog settings more ts
  till : till = 16 + kept₀.length

/-- The second file holds the entries of all keys and what came into the log up to `till`. -/
structure Copied (settings : Settings) (head kept₀ more : List UInt8) (rs₀ ts : List Record)
    (db : DatabaseObject) (c : CompactorObject) (till : ℕ) (bundles : List (List Store)) : Prop where
  le : c.info.till ≤ till
  reached : till ≤ c.info.till + more.length
  whole : till % kBlockSize = 0
  compact : c.compact =
    head ++ encodeLog settings (bundles.map .multiStore) ++ more.take (till - c.info.till)
  fits : ∀ bundle ∈ bundles, bundle ≠ [] ∧ bundle.length ≤ settings.maxBundledRecords
  collected : ∃ asked, Collected settings (startTime head).relative rs₀ ts db.removing asked
    bundles.flatten ∧ ∀ key ∈ CompactorObject.storeKeys settings kept₀, key ∈ asked

/-- What a compactor has done when it gets to a state. -/
def Stage (settings : Settings) (head kept₀ more : List UInt8) (rs₀ ts : List Record)
    (db : DatabaseObject) (c : CompactorObject) : Prop :=
  match c.state with
  | .created => c.written = [] ∧ c.list = []
  | .asking keys => ∃ asked parts, c.Reads settings kept₀ db.binlog.data (asked ++ keys) ∧
      c.Written settings head parts ∧
      Collected settings (startTime head).relative rs₀ ts db.removing asked parts
  | .answered values => ∃ asked parts, c.Reads settings kept₀ db.binlog.data asked ∧
      c.Written settings head parts ∧
      Collected settings (startTime head).relative rs₀ ts db.removing asked
        (values.foldl (CompactorObject.addPart settings c.info) parts)
  | .catchingUp start _ => ∃ bundles, Copied settings head kept₀ more rs₀ ts db c start bundles
  | .finished till => ∃ bundles, Copied settings head kept₀ more rs₀ ts db c till bundles

/-- A compactor that does its work right. -/
def Compacts (settings : Settings) (head kept : List UInt8) (rs : List Record) (db : DatabaseObject)
    (c : CompactorObject) : Prop :=
  ∃ kept₀ more rs₀ ts, OldLog settings kept rs c.info.till kept₀ more rs₀ ts ∧
    Stage settings head kept₀ more rs₀ ts db c

theorem OldLog.append {till : ℕ} {bytes : List UInt8} {new : List Record}
    (h : OldLog settings kept rs till kept₀ more rs₀ ts) (hnew : IsLog settings bytes new) :
    OldLog settings (kept ++ bytes) (rs ++ new) till kept₀ (more ++ bytes) rs₀ (ts ++ new) where
  kept := by rw [h.kept, List.append_assoc]
  records := by rw [h.records, List.append_assoc]
  old := h.old
  since := h.since.append hnew
  till := h.till

theorem Kept.data_eq {binlog : PlainFile} (h : Kept settings head kept [] rs binlog) :
    binlog.data = head ++ kept := by rw [h.data, List.append_nil]

theorem Kept.length_mod {binlog : PlainFile} (h : Kept settings head kept [] rs binlog) :
    binlog.data.length % kBlockSize = 0 := by
  rw [h.data_eq, List.length_append, h.header.length, Nat.add_mod, h.log.length_mod]
  rfl

/-- Where the compactor's part of the log ends. -/
theorem OldLog.data {till : ℕ} {binlog : PlainFile}
    (h : OldLog settings kept rs till kept₀ more rs₀ ts)
    (hkept : Kept settings head kept [] rs binlog) :
    binlog.data = head ++ kept₀ ++ more ∧ till = (head ++ kept₀).length := by
  constructor
  · rw [hkept.data_eq, h.kept, List.append_assoc]
  · rw [h.till, List.length_append, hkept.header.length]

theorem Copied.appends {bytes : List UInt8} {new : List Record} {till : ℕ}
    {bundles : List (List Store)} (happends : Appends settings head kept rs db db' bytes new)
    (h : Copied settings head kept₀ more rs₀ ts db c till bundles) :
    Copied settings head kept₀ (more ++ bytes) rs₀ (ts ++ new) db' c till bundles := by
  have hle := h.le
  have hreached := h.reached
  obtain ⟨asked, hcollected, hall⟩ := h.collected
  refine ⟨hle, ?_, h.whole, ?_, h.fits, asked, hcollected.appends happends, hall⟩
  · rw [List.length_append]
    omega
  · rw [h.compact, List.take_append_of_le_length (by omega)]

/-- The calls in between do not disturb it. -/
theorem Compacts.appends {bytes : List UInt8} {new : List Record}
    (hkept : Kept settings head kept [] rs db.binlog)
    (happends : Appends settings head kept rs db db' bytes new)
    (h : Compacts settings head kept rs db c) :
    Compacts settings head (kept ++ bytes) (rs ++ new) db' c := by
  obtain ⟨kept₀, more, rs₀, ts, hold, hstage⟩ := h
  have hdata : db'.binlog.data = db.binlog.data ++ bytes := by
    rw [happends.log.data_eq, hkept.data_eq, List.append_assoc]
  refine ⟨kept₀, more ++ bytes, rs₀, ts ++ new, hold.append happends.isLog, ?_⟩
  unfold Stage at hstage ⊢
  rw [hdata]
  split at hstage
  · exact hstage
  · obtain ⟨asked, parts, hreads, hwritten, hcollected⟩ := hstage
    exact ⟨asked, parts, hreads.grow bytes, hwritten, hcollected.appends happends⟩
  · obtain ⟨asked, parts, hreads, hwritten, hcollected⟩ := hstage
    exact ⟨asked, parts, hreads.grow bytes, hwritten, hcollected.appends happends⟩
  · obtain ⟨bundles, hcopied⟩ := hstage
    exact ⟨bundles, hcopied.appends happends⟩
  · obtain ⟨bundles, hcopied⟩ := hstage
    exact ⟨bundles, hcopied.appends happends⟩

theorem CompactorObject.Written.congr {parts : List Store} (h : c.Written settings head parts)
    (hcompact : c'.compact = c.compact) (hlist : c'.list = c.list) (hwritten : c'.written = c.written) :
    c'.Written settings head parts where
  bundles := by rw [hcompact, hlist]; exact h.bundles
  list_le := hlist ▸ h.list_le
  written := hwritten ▸ h.written

/-- Parsing a chunk asks for more keys or starts to copy. -/
theorem Stage.parseChunk {asked : List Key} {parts : List Store}
    (hold : OldLog settings kept rs c.info.till kept₀ more rs₀ ts)
    (hreads : c.Reads settings kept₀ db.binlog.data asked) (hwritten : c.Written settings head parts)
    (hcollected : Collected settings (startTime head).relative rs₀ ts db.removing asked parts)
    (h : c.parseChunk settings db.binlog.data = some c') :
    Stage settings head kept₀ more rs₀ ts db c' ∧ c'.info = c.info := by
  obtain ⟨wrapper, ⟨keys, rfl, hreads'⟩ | ⟨rfl, hall⟩⟩ := hreads.parseChunk h
  · exact ⟨⟨asked, parts, hreads', hwritten.congr rfl rfl rfl, hcollected⟩, rfl⟩
  · have hlast : ({ c with wrapper } : CompactorObject).Written settings head parts :=
      hwritten.congr rfl rfl rfl
    obtain ⟨hflushed, hsame, hnil⟩ := hlast.writeList
    obtain ⟨bundles, hcompact, hparts, hbundles⟩ := hflushed.bundles
    rw [hnil, List.append_nil] at hparts
    subst hparts
    refine ⟨⟨bundles, ?_⟩, hsame.info⟩
    have hinfo : (({ c with wrapper } : CompactorObject).writeList settings).info.till =
        c.info.till := by rw [hsame.info]
    exact {
      le := hinfo.le
      reached := by
        dsimp only
        rw [hinfo]
        omega
      whole := by
        rw [hold.till, Nat.add_mod, hold.old.length_mod]
        rfl
      compact := by
        dsimp only
        rw [hinfo, Nat.sub_self, List.take_zero, List.append_nil]
        exact hcompact
      fits := hbundles
      collected := ⟨asked, hcollected, hall⟩ }

/-- A copy that has caught up with the log. -/
theorem Copied.caughtUp {bundles : List (List Store)} {start till : ℕ} {compact : List UInt8}
    (hlog : db.binlog.data = head ++ kept₀ ++ more) (htill : c.info.till = (head ++ kept₀).length)
    (hwhole : db.binlog.data.length % kBlockSize = 0)
    (h : Copied settings head kept₀ more rs₀ ts db c start bundles)
    (hcatchUp : CompactorObject.catchUp settings db.binlog.data start c.compact =
      some (till, compact)) :
    till = c.info.till + more.length ∧ till = db.binlog.data.length ∧
      compact = head ++ encodeLog settings (bundles.map .multiStore) ++ more := by
  have hle := h.le
  obtain ⟨hlast, -, hcompact⟩ := CompactorObject.catchUp_spec hwhole h.whole hcatchUp
  have hdrop : db.binlog.data.drop start = more.drop (start - c.info.till) := by
    rw [hlog, List.drop_append, List.drop_of_length_le (by omega), List.nil_append, ← htill]
  refine ⟨?_, hlast, ?_⟩
  · rw [hlast, hlog, htill]
    exact List.length_append
  · rw [hcompact, h.compact, hdrop, List.append_assoc, List.take_append_drop]

/-- One round of copying. -/
theorem Copied.finalize {bundles : List (List Store)} {start lastCatchUp : ℕ}
    (hlog : db.binlog.data = head ++ kept₀ ++ more) (htill : c.info.till = (head ++ kept₀).length)
    (hwhole : db.binlog.data.length % kBlockSize = 0)
    (h : Copied settings head kept₀ more rs₀ ts db c start bundles)
    (hfinalize : c.finalize settings db.binlog.data start lastCatchUp = some c') :
    Stage settings head kept₀ more rs₀ ts db c' ∧ c'.info = c.info := by
  unfold CompactorObject.finalize at hfinalize
  split at hfinalize
  · cases hfinalize
  · next till copied hcatchUp =>
    obtain ⟨htillEq, hlast, rfl⟩ := h.caughtUp hlog htill hwhole hcatchUp
    have hcopied : ∀ state, Copied settings head kept₀ more rs₀ ts db
        { c with
          compact := head ++ encodeLog settings (bundles.map .multiStore) ++ more
          state } till bundles := fun state => {
      le := by
        dsimp only
        omega
      reached := htillEq.le
      whole := hlast ▸ hwhole
      compact := by
        dsimp only
        rw [htillEq, Nat.add_sub_cancel_left, List.take_length]
      fits := h.fits
      collected := h.collected }
    split at hfinalize
    · cases hfinalize
    · split at hfinalize
      · cases hfinalize
        exact ⟨⟨bundles, hcopied _⟩, rfl⟩
      · cases hfinalize
        exact ⟨⟨bundles, hcopied _⟩, rfl⟩

/-- A step of the compactor. -/
theorem Compacts.step (hkept : Kept settings head kept [] rs db.binlog)
    (hrefines : Refines settings head rs db) (hsized : db.Sized settings)
    (h : Compacts settings head kept rs db c) (hstep : CompactorStep settings db c c') :
    Compacts settings head kept rs db c' := by
  obtain ⟨kept₀, more, rs₀, ts, hold, hstage⟩ := h
  obtain ⟨hlog, htill⟩ := hold.data hkept
  suffices hnext : Stage settings head kept₀ more rs₀ ts db c' ∧ c'.info = c.info from
    ⟨kept₀, more, rs₀, ts, by rw [hnext.2]; exact hold, hnext.1⟩
  unfold Stage at hstage
  cases hstep with
  | start hstate hstart =>
    rw [hstate] at hstage
    obtain ⟨hnone, hnil⟩ := hstage
    obtain ⟨wrapper, hparse, hreads⟩ := CompactorObject.Reads.start hkept.header.length
      hold.old.length_mod hlog hold.till hstart
    have hwritten : ({ c with wrapper, compact := head } : CompactorObject).Written settings head [] :=
      ⟨⟨[], by simp, by simp [hnil], by simp⟩, by simp [hnil], by simp [hnone]⟩
    exact Stage.parseChunk (c := { c with wrapper, compact := head }) hold hreads hwritten
      ⟨by simp, by simp, by simp⟩ hparse
  | getManyRaw hstate =>
    rw [hstate] at hstage
    obtain ⟨asked, parts, hreads, hwritten, hcollected⟩ := hstage
    refine ⟨⟨_, parts, hreads.congr rfl, hwritten.congr rfl rfl rfl, ?_⟩, rfl⟩
    exact hcollected.answer c.info (hold.records ▸ hrefines) hsized
      (hold.records ▸ hkept.log.readable)
  | processValues hstate hprocess =>
    rw [hstate] at hstage
    obtain ⟨asked, parts, hreads, hwritten, hcollected⟩ := hstage
    obtain ⟨hfilled, hsame⟩ := hwritten.fillLists _
    obtain ⟨hnext, hinfo⟩ := Stage.parseChunk (hsame.info.symm ▸ hold) (hreads.congr hsame.wrapper)
      hfilled hcollected hprocess
    exact ⟨hnext, hinfo.trans hsame.info⟩
  | catchUp hstate hfinalize =>
    rw [hstate] at hstage
    obtain ⟨bundles, hcopied⟩ := hstage
    exact hcopied.finalize hlog htill hkept.length_mod hfinalize

/-- A compactor starts on the whole log. -/
theorem Compacts.check (hkept : Kept settings head kept [] rs db.binlog)
    (hcheck : db.checkCompactor settings = some c) : Compacts settings head kept rs db c := by
  unfold DatabaseObject.checkCompactor at hcheck
  split at hcheck
  · next hdue =>
    cases hcheck
    have hopen : db.binlog.mode.isSome = true := by
      unfold DatabaseObject.compactorDue at hdue
      exact (of_decide_eq_true hdue).2.2.2
    refine ⟨kept, [], rs, [], ?_, rfl, rfl⟩
    have hsize : db.binlog.data.length = 16 + kept.length := by
      rw [hkept.data_eq, List.length_append, hkept.header.length]
    exact {
      kept := (List.append_nil kept).symm
      records := (List.append_nil rs).symm
      old := hkept.log
      since := .nil
      till := by
        dsimp only
        rw [CompactorObject.size_of_whole hopen, hsize]
        rw [hsize, Nat.add_mod, hkept.log.length_mod]
        rfl }
  · cases hcheck

/-! ## Replacing the log -/

/-- The parts of some bundles are what the bundles do to a key. -/
theorem logOps_bundles {bundles : List (List Store)} {relative : UInt64} {key : Key}
    (hvalid : ∀ part ∈ bundles.flatten, Memory.ValidSize settings part.size) :
    logOps settings relative key (bundles.map .multiStore) =
      storeOps settings relative key bundles.flatten := by
  induction bundles with
  | nil => rfl
  | cons bundle bundles ih =>
    have hgood : (Record.multiStore bundle).goodParts settings = bundle := by
      refine List.takeWhile_eq_self_iff.mpr ?_
      intro part hpart
      simpa using hvalid part (by simp [show part ∈ bundle from hpart])
    rw [List.map_cons, logOps, List.flatMap_cons, ← logOps,
      ih fun part hpart => hvalid part (by
        rw [List.flatten_cons, List.mem_append]
        exact .inr hpart)]
    simp [Record.opsAt, hgood, storeOps]

/-- A key that a log does not store has no entry. -/
theorem logEntry_of_not_stored {relative : UInt64} {key : Key} (h : IsLog settings kept₀ rs₀)
    (hkey : key ∉ CompactorObject.storeKeys settings kept₀) :
    logEntry settings relative rs₀ key = none := by
  rw [Option.eq_none_iff_forall_ne_some]
  intro entry hentry
  obtain ⟨r, hr, part, hpart, rfl, -⟩ := exists_store_of_logEntry hentry
  refine hkey (List.mem_flatMap.mpr ⟨r, by rwa [h.decoded], ?_⟩)
  have hmem := (List.takeWhile_sublist _).subset hpart
  cases r with
  | store record =>
    obtain rfl := List.mem_singleton.mp hmem
    exact List.mem_singleton_self _
  | multiStore parts => exact List.mem_map_of_mem hmem
  | multiRemove keys => cases hmem
  | multiAccess time keys => cases hmem

/-- The compacted log says of every key what the old one said. -/
theorem Copied.entry {till : ℕ} {bundles : List (List Store)}
    (hold : OldLog settings kept rs c.info.till kept₀ more rs₀ ts)
    (h : Copied settings head kept₀ more rs₀ ts db c till bundles) (key : Key)
    (hkey : key ∉ db.removing) :
    logEntry settings (startTime head).relative (bundles.map .multiStore ++ ts) key =
      logEntry settings (startTime head).relative rs key := by
  obtain ⟨asked, hcollected, hall⟩ := h.collected
  rw [hold.records, logEntry_append, logEntry_append, logEntry,
    logOps_bundles fun part hpart => (hcollected.valid part hpart).1]
  change replayKey _ _ (snapshot settings (startTime head).relative bundles.flatten key) = _
  by_cases hasked : key ∈ asked
  · exact (hcollected.settled key hasked).resolve_left hkey
  · rw [snapshot_none fun hpart => hasked (hcollected.known key hpart),
      logEntry_of_not_stored hold.old fun hstored => hasked (hall key hstored)]

/-- The compacted log as a file that is open at its end. -/
theorem Copied.log_kept {till : ℕ} {bundles : List (List Store)} {binlog : PlainFile}
    (hhead : ValidHead settings head)
    (hold : OldLog settings kept rs c.info.till kept₀ more rs₀ ts)
    (h : Copied settings head kept₀ more rs₀ ts db c till bundles)
    (hdata : binlog.data = head ++ encodeLog settings (bundles.map .multiStore) ++ more)
    (hcursor : binlog.mode.isSome = true → binlog.cursor = binlog.size) :
    Kept settings head (encodeLog settings (bundles.map .multiStore) ++ more) []
      (bundles.map .multiStore ++ ts) binlog := by
  obtain ⟨asked, hcollected, -⟩ := h.collected
  have hpart : ∀ bundle ∈ bundles, ∀ part ∈ bundle,
      Memory.ValidSize settings part.size ∧ part.Fits settings.trackEstimatedTime :=
    fun bundle hbundle part hpart => hcollected.valid part (List.mem_flatten.mpr ⟨bundle, hbundle, hpart⟩)
  have hlog : IsLog settings (encodeLog settings (bundles.map .multiStore) ++ more)
      (bundles.map .multiStore ++ ts) := by
    refine (IsLog.encodeLog (fun r hr => ?_) (fun r hr => ?_)).append hold.since
    · obtain ⟨bundle, hbundle, rfl⟩ := List.mem_map.mp hr
      exact ⟨(h.fits bundle hbundle).1, (h.fits bundle hbundle).2,
        fun part hmem => (hpart bundle hbundle part hmem).2⟩
    · obtain ⟨bundle, hbundle, rfl⟩ := List.mem_map.mp hr
      rw [Record.Accepted, List.all_eq_true]
      exact fun part hmem => decide_eq_true (hpart bundle hbundle part hmem).1
  have hlength : binlog.data.length =
      16 + (encodeLog settings (bundles.map .multiStore) ++ more).length := by
    rw [hdata, List.append_assoc, List.length_append, hhead.length]
  refine ⟨by rw [hdata, List.append_nil, List.append_assoc], hhead, hlog, fun hopen => ?_⟩
  rw [hcursor hopen, CompactorObject.size_of_whole hopen, hlength]
  rw [hlength, Nat.add_mod, hlog.length_mod]
  rfl

/-- When the log is open afterwards it was left alone or replaced by a copy that has caught up. -/
theorem compactorDone_cases {env : DoneEnv} {compact : List UInt8} {excess : ℤ} {till : ℕ}
    (hafter : (db.compactorDone settings env compact excess till).2.binlog.mode.isSome = true) :
    let after := (db.compactorDone settings env compact excess till).2
    after = db.compactorFail ∨
      ∃ copied, (if till = db.binlog.size then some (db.binlog.size, compact)
          else CompactorObject.catchUp settings db.binlog.data till compact) =
            some (db.binlog.size, copied) ∧
        after.binlog.data = copied ∧ after.binlog.cursor = after.binlog.size := by
  intro after
  have heq : after = (db.compactorDone settings env compact excess till).2 := rfl
  clear_value after
  rw [← heq] at hafter
  unfold compactorDone at heq
  dsimp only at heq
  split at heq
  · exact .inl heq
  · next till' copied hcaught =>
    split at heq
    · exact .inl heq
    · next hsize =>
      rw [ne_eq, not_not] at hsize
      split at heq
      · exact .inl heq
      · split at heq
        · subst heq
          cases hafter
        · subst heq
          cases hafter
        · split at heq
          · subst heq
            cases hafter
          · subst heq hsize
            exact .inr ⟨copied, hcaught, rfl, rfl⟩

/-- Replacing the log, if it leaves the log open, leaves what it says. -/
theorem Compacts.done (hkept : Kept settings head kept [] rs db.binlog)
    (hopen : db.binlog.mode.isSome = true) (hrefines : Refines settings head rs db)
    (h : Compacts settings head kept rs db c) {till : ℕ} (hstate : c.state = .finished till)
    {env : DoneEnv}
    (hafter : (db.compactorDone settings env c.compact c.excessLength till).2.binlog.mode.isSome =
      true) :
    let after := (db.compactorDone settings env c.compact c.excessLength till).2
    ∃ kept' rs', Kept settings head kept' [] rs' after.binlog ∧ Refines settings head rs' after := by
  obtain ⟨kept₀, more, rs₀, ts, hold, hstage⟩ := h
  unfold Stage at hstage
  rw [hstate] at hstage
  obtain ⟨bundles, hcopied⟩ := hstage
  obtain ⟨hlog, htill⟩ := hold.data hkept
  have hwhole := hkept.length_mod
  rcases compactorDone_cases hafter with heq | ⟨copied, hcaught, hdata, hcursor⟩
  · rw [heq]
    exact ⟨kept, rs, hkept, hrefines.time, hrefines.entry⟩
  · have hcatchUp : CompactorObject.catchUp settings db.binlog.data till c.compact =
        some (db.binlog.size, copied) := by
      split at hcaught
      · next hend =>
        rw [← hcaught, CompactorObject.catchUp]
        rw [CompactorObject.size_of_whole hopen hwhole] at hend ⊢
        simp only [CompactorObject.size_of_whole
          (p := { data := db.binlog.data, cursor := 0, mode := some .readOnly }) rfl hwhole, hend,
          if_true]
      · exact hcaught
    obtain ⟨-, -, rfl⟩ := hcopied.caughtUp hlog htill hwhole hcatchUp
    obtain ⟨⟨length, hmemory⟩, hremoving, -⟩ :=
      compactorDone_frame settings env c.compact c.excessLength till db
    refine ⟨_, _, hcopied.log_kept hkept.header hold hdata fun _ => hcursor, ?_, fun key => ?_⟩
    · rw [hmemory]
      exact hrefines.time
    · rw [hmemory, hremoving]
      change db.memory.map.lookup key = _
      rw [hrefines.entry key]
      split
      · rfl
      · next hkey => exact (hcopied.entry hold key hkey).symm

end Bettergram.Storage.Cache
