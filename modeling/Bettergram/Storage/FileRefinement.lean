import Bettergram.Storage.PlainFile

/-! # An encrypted file refines a plain byte array

The device holds the lock bytes, the salt and then one stream, the rest of the
header followed by the array, combined with the keystream position by position.
Every call keeps the offsets of the device and of the keystream in step with
the cursor, so an overwrite meets the counter blocks of the original write.
-/

namespace Bettergram.Storage
open Foundation

variable (ssl : OpenSSL) (key : EncryptionKey) (salt : Salt)

namespace FileRefinement

def stream : ℕ → UInt8 := (key.prepareCtrState ssl salt).keystream ssl

/-- The encrypted part of the header. -/
def headerRest : List UInt8 :=
  headerFields ++ (ssl.sha256 (key.data.toList ++ (salt.toList ++ headerFields))).toList

def prologue : List UInt8 := magic ++ salt.toList

@[simp] theorem length_headerFields : headerFields.length = 16 := rfl

@[simp] theorem length_headerRest : (headerRest ssl key salt).length = 48 := by
  simp [headerRest]

@[simp] theorem length_prologue : (prologue salt).length = 68 := by
  simp [prologue, magic]

/-- The device bytes that represent an array. -/
def image (data : List UInt8) : List UInt8 :=
  prologue salt ++ xorAt (stream ssl key salt) 0 (headerRest ssl key salt ++ data)

theorem length_image (data : List UInt8) :
    (image ssl key salt data).length = 116 + data.length := by
  simp [image]
  omega

/-- Writing an encrypted piece at its place gives the image of the overwritten array. -/
theorem overwrite_image (data bytes : List UInt8) {o : ℕ} (ho : o ≤ data.length) :
    overwrite (image ssl key salt data) (116 + o) (xorAt (stream ssl key salt) (48 + o) bytes) =
      image ssl key salt (overwrite data o bytes) := by
  have hpos : 116 + o = (prologue salt).length + (48 + o) := by simp; omega
  have hrest : 48 + o = (headerRest ssl key salt).length + o := by simp
  have hstream := xorAt_overwrite (stream ssl key salt) 0 (headerRest ssl key salt ++ data)
    (o := 48 + o) bytes (by simp; omega)
  rw [Nat.zero_add] at hstream
  rw [image, hpos, overwrite_append_left, hstream, hrest, overwrite_append_left, image]

/-- A stretch of the device is the encrypted stretch of the array. -/
theorem slice_image (data : List UInt8) (o n : ℕ) :
    ((image ssl key salt data).drop (116 + o)).take n =
      xorAt (stream ssl key salt) (48 + o) ((data.drop o).take n) := by
  have hpos : 116 + o = (prologue salt).length + (48 + o) := by simp; omega
  have hrest : 48 + o = (headerRest ssl key salt).length + o := by simp
  have hdrop : (headerRest ssl key salt ++ data).drop (48 + o) = data.drop o := by
    rw [hrest, List.drop_length_add_append]
  rw [image, hpos, List.drop_length_add_append, drop_xorAt, take_xorAt, Nat.zero_add, hdrop]

/-- How an encrypted file represents an array with a cursor. -/
structure Refines (f : File) (p : PlainFile) : Prop where
  content : f.data.content = image ssl key salt p.data
  mode : f.data.mode = p.mode
  whole : p.data.length % kBlockSize = 0
  cursor_le : p.cursor ≤ p.data.length
  opened : p.mode.isSome → f.state = some (key.prepareCtrState ssl salt) ∧
    f.encryptionOffset = 48 + p.cursor ∧ f.data.pos = 116 + p.cursor ∧ f.dataSize = p.data.length
  closed : p.mode = none → p.cursor = 0 ∧ f.encryptionOffset = 0 ∧ f.dataSize = 0

variable {ssl key salt} {f : File} {p : PlainFile}

theorem offset_of {o : ℕ} (h : f.encryptionOffset = 48 + o) : f.offset = o := by
  simp only [File.offset, h, kSaltSize, headerSize]
  split <;> omega

theorem Refines.offset_eq (h : Refines ssl key salt f p) : f.offset = p.offset := by
  cases hm : p.mode with
  | none =>
    obtain ⟨hc, he, -⟩ := h.closed hm
    simp [File.offset, PlainFile.offset, he, hc, kSaltSize, headerSize]
  | some m =>
    exact offset_of (h.opened (by simp [hm])).2.1

theorem Refines.size_eq (h : Refines ssl key salt f p) : f.size = p.size := by
  cases hm : p.mode with
  | none => simp [File.size, PlainFile.size, (h.closed hm).2.2, hm]
  | some m =>
    have hs := (h.opened (by simp [hm])).2.2.2
    simp [File.size, PlainFile.size, hs, hm, h.whole]

theorem Refines.canRead_eq (h : Refines ssl key salt f p) : f.data.canRead = p.canRead := by
  rw [QFile.canRead, h.mode, PlainFile.canRead]

theorem Refines.canWrite_eq (h : Refines ssl key salt f p) : f.data.canWrite = p.canWrite := by
  rw [QFile.canWrite, h.mode, PlainFile.canWrite]

theorem isSome_of_canRead {p : PlainFile} (h : p.canRead = true) : p.mode.isSome := by
  cases hm : p.mode with
  | none => simp [PlainFile.canRead, hm] at h
  | some m => rfl

theorem isSome_of_canWrite {p : PlainFile} (h : p.canWrite = true) : p.mode.isSome := by
  cases hm : p.mode with
  | none => simp [PlainFile.canWrite, hm] at h
  | some m => rfl

theorem block_offset {o : ℕ} : (48 + o) % kBlockSize = 0 ↔ o % kBlockSize = 0 := by
  simp only [kBlockSize]
  omega

/-- Inside a block the keystream position is refused. -/
theorem Refines.crypt_none (h : Refines ssl key salt f p) (hopen : p.mode.isSome)
    (hc : p.cursor % kBlockSize ≠ 0) (bytes : List UInt8) :
    f.encrypt ssl bytes = none ∧ f.decrypt ssl bytes = none := by
  obtain ⟨hs, he, -, -⟩ := h.opened hopen
  have hnone : (key.prepareCtrState ssl salt).process ssl bytes (48 + p.cursor) = none :=
    CtrState.process_eq_none _ _ fun hb => hc (block_offset.mp hb.2)
  constructor <;>
    simp [File.encrypt, File.decrypt, CtrState.encrypt, CtrState.decrypt, hs, he, hnone]

theorem Refines.encrypt_eq (h : Refines ssl key salt f p) (hopen : p.mode.isSome)
    (hc : p.cursor % kBlockSize = 0) {bytes : List UInt8} (hb : bytes.length % kBlockSize = 0) :
    f.encrypt ssl bytes = some (xorAt (stream ssl key salt) (48 + p.cursor) bytes,
      { f with encryptionOffset := 48 + p.cursor + bytes.length }) := by
  obtain ⟨hs, he, -, -⟩ := h.opened hopen
  have hp := CtrState.process_eq ssl (key.prepareCtrState ssl salt) hb (block_offset.mpr hc)
  simp [File.encrypt, CtrState.encrypt, hs, he, hp, stream]

variable (ssl key salt f) in
theorem Refines.decrypt_eq {o : ℕ} (hs : f.state = some (key.prepareCtrState ssl salt))
    (he : f.encryptionOffset = o) (ho : o % kBlockSize = 0) (bytes : List UInt8)
    (hb : bytes.length % kBlockSize = 0) :
    f.decrypt ssl bytes = some (xorAt (stream ssl key salt) o bytes,
      { f with encryptionOffset := o + bytes.length }) := by
  have hp := CtrState.process_eq ssl (key.prepareCtrState ssl salt) hb ho
  simp [File.decrypt, CtrState.decrypt, hs, he, hp, stream]

/-- The state of an open file after the array and the cursor have changed. -/
def moved (ssl : OpenSSL) (key : EncryptionKey) (salt : Salt) (f : File) (p : PlainFile) : File where
  data := { f.data with content := image ssl key salt p.data, pos := 116 + p.cursor }
  encryptionOffset := 48 + p.cursor
  dataSize := p.data.length
  state := f.state

theorem Refines.moved (h : Refines ssl key salt f p) (hopen : p.mode.isSome) {q : PlainFile}
    (hm : q.mode = p.mode) (hwhole : q.data.length % kBlockSize = 0)
    (hcursor : q.cursor ≤ q.data.length) :
    Refines ssl key salt (moved ssl key salt f q) q where
  content := rfl
  mode := h.mode.trans hm.symm
  whole := hwhole
  cursor_le := hcursor
  opened _ := ⟨(h.opened hopen).1, rfl, rfl, rfl⟩
  closed hq := by simp [← hm, hq] at hopen

/-- An unlimited write at a block boundary puts the encrypted bytes at the cursor's place. -/
theorem Refines.write_eq (h : Refines ssl key salt f p) (hw : p.canWrite = true)
    (hc : p.cursor % kBlockSize = 0) {bytes : List UInt8} (hb : bytes.length % kBlockSize = 0) :
    f.write ssl none bytes = some (true, xorAt (stream ssl key salt) (48 + p.cursor) bytes,
      FileRefinement.moved ssl key salt f (p.write none bytes).2) := by
  have hopen := isSome_of_canWrite hw
  obtain ⟨hs, he, hpos, hsize⟩ := h.opened hopen
  have hcan : f.data.canWrite = true := h.canWrite_eq.trans hw
  have hisOpen : f.isOpen = true := by rw [File.isOpen, h.mode]; exact hopen
  have hgap : 116 + p.cursor - f.data.content.length = 0 := by
    have hcursor := h.cursor_le
    rw [h.content, length_image]
    omega
  have htake : (xorAt (stream ssl key salt) (48 + p.cursor) bytes).take bytes.length =
      xorAt (stream ssl key salt) (48 + p.cursor) bytes := List.take_of_length_le (by simp)
  have hdata : overwrite f.data.content (116 + p.cursor)
      (xorAt (stream ssl key salt) (48 + p.cursor) bytes) =
        image ssl key salt (overwrite p.data p.cursor bytes) := by
    rw [h.content, overwrite_image _ _ _ _ _ h.cursor_le]
  have hdevice : f.data.write none (xorAt (stream ssl key salt) (48 + p.cursor) bytes) =
      ((bytes.length : ℤ), { f.data with
        content := image ssl key salt (overwrite p.data p.cursor bytes),
        pos := 116 + (p.cursor + bytes.length) }) := by
    simp only [QFile.write, hcan, hgap, htake, length_xorAt, QFile.taken_none,
      List.replicate_zero, List.append_nil, hdata, hpos, Nat.add_assoc, if_true]
  simp [File.write, hb, hisOpen, h.encrypt_eq hopen hc hb, File.writePlain, hdevice,
    offset_of (o := p.cursor + bytes.length), FileRefinement.moved, hsize,
    length_overwrite p.data bytes h.cursor_le, Nat.add_assoc]

theorem Refines.write (h : Refines ssl key salt f p) (hw : p.canWrite = true)
    (hc : p.cursor % kBlockSize = 0) {bytes : List UInt8} (hb : bytes.length % kBlockSize = 0) :
    Refines ssl key salt (FileRefinement.moved ssl key salt f (p.write none bytes).2)
      (p.write none bytes).2 := by
  have hlen := length_overwrite p.data bytes h.cursor_le
  have hwhole := h.whole
  apply h.moved (isSome_of_canWrite hw)
  · simp
  · simp only [PlainFile.write_none, hlen, kBlockSize] at *
    omega
  · simp only [PlainFile.write_none, hlen]
    omega

/-- Whenever a write reports success, the file was writable at a block boundary. -/
theorem Refines.write_inv (h : Refines ssl key salt f p) {bytes buffer : List UInt8} {f' : File}
    (hf : f.write ssl none bytes = some (true, buffer, f')) :
    bytes.length % kBlockSize = 0 ∧ p.canWrite = true ∧ p.cursor % kBlockSize = 0 := by
  have hb : bytes.length % kBlockSize = 0 := by
    by_contra hb
    simp [File.write, hb] at hf
  have hopen : p.mode.isSome := by
    by_contra hopen
    have hclosed : f.isOpen = false := by
      rw [File.isOpen, h.mode]
      exact eq_false_of_ne_true hopen
    simp [File.write, hb, hclosed] at hf
  have hisOpen : f.isOpen = true := by rw [File.isOpen, h.mode]; exact hopen
  have hc : p.cursor % kBlockSize = 0 := by
    by_contra hc
    simp [File.write, hb, hisOpen, (h.crypt_none hopen hc bytes).1] at hf
  refine ⟨hb, ?_, hc⟩
  by_contra hw
  have hcan : f.data.canWrite = false := by
    rw [h.canWrite_eq]
    exact eq_false_of_ne_true hw
  have hcount : ¬((-1 : ℤ) = bytes.length) := by omega
  simp [File.write, hb, hisOpen, h.encrypt_eq hopen hc hb, File.writePlain, QFile.write, hcan,
    hcount, Option.bind_eq_some_iff] at hf

theorem Refines.read_device (h : Refines ssl key salt f p) (hr : p.canRead = true) (n : ℕ) :
    f.data.read n = some (xorAt (stream ssl key salt) (48 + p.cursor)
      ((p.data.drop p.cursor).take n), { f.data with
        pos := f.data.pos + ((p.data.drop p.cursor).take n).length }) := by
  have hpos := (h.opened (isSome_of_canRead hr)).2.2.1
  have hslice : (f.data.content.drop f.data.pos).take n =
      xorAt (stream ssl key salt) (48 + p.cursor) ((p.data.drop p.cursor).take n) := by
    rw [h.content, hpos, slice_image]
  simp only [QFile.read, h.canRead_eq, hr, hslice, length_xorAt, if_true]

/-- A read at a block boundary, or with less than a block left, returns the array's bytes. -/
theorem Refines.read_eq (h : Refines ssl key salt f p) (hr : p.canRead = true) {n : ℕ}
    (hn : n % kBlockSize = 0) (hc : p.cursor % kBlockSize = 0 ∨ p.peek n = []) :
    f.read ssl n = some (p.peek n, FileRefinement.moved ssl key salt f (p.read n).2) := by
  have hopen := isSome_of_canRead hr
  obtain ⟨hs, he, hpos, hsize⟩ := h.opened hopen
  have hseek : ∀ d : QFile, d.mode = f.data.mode → ∀ o, d.seek o = (true, { d with pos := o }) := by
    intro d hd o
    simp [QFile.seek, hd, h.mode, hopen]
  set bytes := (p.data.drop p.cursor).take n with hbytes
  by_cases hnil : p.peek n = []
  · have hcount : bytes.length - bytes.length % kBlockSize = 0 := by
      have hlen := congrArg List.length hnil
      simp only [PlainFile.peek, ← hbytes, List.length_take, List.length_nil] at hlen
      omega
    have hback : f.data.pos + bytes.length - bytes.length % kBlockSize = 116 + p.cursor := by
      have hle := Nat.mod_le bytes.length kBlockSize
      rw [hpos]
      omega
    have hmoved : FileRefinement.moved ssl key salt f (p.read n).2 = f := by
      simp only [PlainFile.read, hnil, FileRefinement.moved, ← h.content, ← hpos, ← hsize, ← he,
        List.length_nil, Nat.add_zero]
    rw [hmoved]
    simp only [File.read, hn, h.read_device hr, ← hbytes, length_xorAt, hcount, hnil]
    by_cases hzero : bytes.length % kBlockSize = 0
    · have hlen : bytes.length = 0 := by omega
      simp [hlen]
    · simp [hzero, hseek, hback, ← hpos]
  · have hc := hc.resolve_right hnil
    have hpeek := PlainFile.peek_eq hn h.whole hc
    rw [← hbytes] at hpeek
    have hback : bytes.length % kBlockSize = 0 := by
      have hwhole := h.whole
      simp only [hbytes, List.length_take, List.length_drop, kBlockSize] at *
      omega
    have hlen : bytes.length ≠ 0 := by
      rw [hpeek] at hnil
      simpa using hnil
    have hfull : (xorAt (stream ssl key salt) (48 + p.cursor) bytes).take bytes.length =
        xorAt (stream ssl key salt) (48 + p.cursor) bytes := List.take_of_length_le (by simp)
    simp only [File.read, hn, h.read_device hr, ← hbytes, length_xorAt, hback, hlen, hfull,
      Nat.sub_zero, if_true, Bool.not_true, Bool.false_or, decide_false, ne_eq, not_true,
      if_false, Bool.false_eq_true]
    have hdecrypt : ∀ (d : QFile) (bs : List UInt8), bs.length % kBlockSize = 0 →
        ({ f with data := d } : File).decrypt ssl bs =
          some (xorAt (stream ssl key salt) (48 + p.cursor) bs,
            { f with data := d, encryptionOffset := 48 + p.cursor + bs.length }) :=
      fun d bs hb => Refines.decrypt_eq ssl key salt { f with data := d } hs he
        (block_offset.mpr hc) bs hb
    rw [hdecrypt _ _ (by simpa using hback)]
    simp [PlainFile.read, hpeek, FileRefinement.moved, ← h.content, hpos, hsize, Nat.add_assoc]

/-- Inside a block nothing can be read. -/
theorem Refines.read_none (h : Refines ssl key salt f p) (hr : p.canRead = true) {n : ℕ}
    (hc : p.cursor % kBlockSize ≠ 0) (hnil : p.peek n ≠ []) : f.read ssl n = none := by
  have hopen := isSome_of_canRead hr
  set bytes := (p.data.drop p.cursor).take n with hbytes
  have hcount : bytes.length - bytes.length % kBlockSize ≠ 0 := by
    intro hzero
    apply hnil
    simp [PlainFile.peek, ← hbytes, hzero]
  have hdecrypt : ∀ (d : QFile) (bs : List UInt8), { f with data := d }.decrypt ssl bs = none := by
    intro d bs
    have hnone := (h.crypt_none hopen hc bs).2
    simpa [File.decrypt] using hnone
  have hseek : ∀ d : QFile, d.mode = f.data.mode → ∀ o, d.seek o = (true, { d with pos := o }) := by
    intro d hd o
    simp [QFile.seek, hd, h.mode, hopen]
  by_cases hn : n % kBlockSize = 0
  · by_cases hzero : bytes.length % kBlockSize = 0
    · have hlen : bytes.length ≠ 0 := by omega
      simp only [File.read, hn, h.read_device hr, ← hbytes, length_xorAt, hzero, hlen, hdecrypt,
        Nat.sub_zero, if_true, Bool.not_true, Bool.false_or, decide_false, ne_eq, not_true,
        if_false, Bool.false_eq_true]
    · simp only [File.read, hn, h.read_device hr, ← hbytes, length_xorAt, hzero, hcount, hseek,
        hdecrypt, Bool.not_true, Bool.false_or, decide_false, ne_eq, not_true, if_false,
        Bool.false_eq_true]
  · simp [File.read, hn]

theorem Refines.read (h : Refines ssl key salt f p) (hr : p.canRead = true) (n : ℕ) :
    Refines ssl key salt (FileRefinement.moved ssl key salt f (p.read n).2) (p.read n).2 := by
  apply h.moved (isSome_of_canRead hr)
  · rfl
  · exact h.whole
  · have hlen : (p.peek n).length ≤ p.data.length - p.cursor := by
      simp only [PlainFile.peek, List.length_take, List.length_drop]
      omega
    have hcursor := h.cursor_le
    change p.cursor + (p.peek n).length ≤ p.data.length
    omega

end FileRefinement

end Bettergram.Storage
