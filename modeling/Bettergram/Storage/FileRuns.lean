import Bettergram.Storage.FileRefinement

/-! # Runs of an encrypted file

Every call on a file that represents an array succeeds exactly when the array
allows it, shows the same bytes and represents the array afterwards. A file
just created represents the empty array, so the two never differ in any run.
-/

namespace Bettergram.Storage
open Foundation FileRefinement

variable {ssl : OpenSSL} {key : EncryptionKey} {salt : Salt} {f : File} {p : PlainFile}

namespace FileRefinement

/-- Equal bytes, and the files still represent the same array. -/
def SameCall (ssl : OpenSSL) (key : EncryptionKey) (salt : Salt)
    (x : List UInt8 × File) (y : List UInt8 × PlainFile) : Prop :=
  x.1 = y.1 ∧ Refines ssl key salt x.2 y.2

theorem Refines.perform_write (h : Refines ssl key salt f p) (bytes : List UInt8) :
    Option.Rel (SameCall ssl key salt) (f.perform ssl key salt (.write bytes))
      (p.perform (.write bytes)) := by
  by_cases hcan : bytes.length % kBlockSize = 0 ∧ p.canWrite ∧ p.cursor % kBlockSize = 0
  · obtain ⟨hb, hw, hc⟩ := hcan
    simp only [File.perform, PlainFile.perform, h.write_eq hw hc hb, hb, hw, hc]
    exact .some ⟨rfl, h.write hw hc hb⟩
  · simp only [File.perform, PlainFile.perform, if_neg hcan]
    rcases hf : f.write ssl none bytes with _ | ⟨_ | _, buffer, f'⟩
    · exact .none
    · exact .none
    · exact absurd (h.write_inv hf) hcan

theorem Refines.perform_seek (h : Refines ssl key salt f p) (offset : ℤ) :
    Option.Rel (SameCall ssl key salt) (f.perform ssl key salt (.seek offset))
      (p.perform (.seek offset)) := by
  cases hm : p.mode with
  | none =>
    have hd : f.data.mode = none := h.mode.trans hm
    have hfail : (f.seek offset).1 = false := by
      unfold File.seek
      split <;> simp [QFile.seek, hd]
    rcases hf : f.seek offset with ⟨_ | _, f'⟩
    · simp only [File.perform, PlainFile.perform, hf, hm]
      exact .none
    · simp [hf] at hfail
  | some m =>
    have hopen : p.mode.isSome := by simp [hm]
    have hd : f.data.mode.isSome := by rw [h.mode]; exact hopen
    have hsize : p.size = f.dataSize := h.size_eq.symm
    have hlen := (h.opened hopen).2.2.2
    by_cases hrange : offset < 0 ∨ (f.dataSize : ℤ) < offset
    · have hno : ¬(p.mode.isSome ∧ 0 ≤ offset ∧ offset ≤ p.size) := by
        rintro ⟨-, hlow, hhigh⟩
        omega
      simp only [File.perform, PlainFile.perform, File.seek, if_pos hrange, if_neg hno]
      exact .none
    · have hyes : p.mode.isSome ∧ 0 ≤ offset ∧ offset ≤ p.size :=
        ⟨hopen, by omega, by omega⟩
      have hpos : kSkipBytes + (headerSize + offset.toNat) = 116 + offset.toNat := by
        simp only [kSkipBytes, headerSize]; omega
      have henc : headerSize + offset.toNat - kSaltSize = 48 + offset.toNat := by
        simp only [kSaltSize, headerSize]; omega
      simp only [File.perform, PlainFile.perform, File.seek, if_neg hrange, if_pos hyes,
        QFile.seek, hd, if_true, hpos, henc]
      refine .some ⟨rfl, ?_⟩
      have hle : offset.toNat ≤ p.data.length := by omega
      have hmoved := h.moved hopen (q := p.seek offset.toNat) rfl h.whole hle
      convert hmoved using 1
      simp only [FileRefinement.moved, PlainFile.seek, ← h.content, hlen]

theorem Refines.close (h : Refines ssl key salt f p) : Refines ssl key salt f.close p.close where
  content := h.content
  mode := rfl
  whole := h.whole
  cursor_le := Nat.zero_le _
  opened hopen := by simp [PlainFile.close] at hopen
  closed _ := ⟨rfl, rfl, rfl⟩

/-- The header of an image gives the salt back. -/
theorem saltOf_append (salt : Salt) (rest : List UInt8) : saltOf (salt.toList ++ rest) = salt := by
  apply Vector.ext
  intro i hi
  have hi' : i < salt.toList.length := by simpa using hi
  simp [saltOf, List.getD_eq_getElem?_getD, List.getElem?_append_left hi', hi]

theorem header_image (data : List UInt8) :
    ((image ssl key salt data).drop kSkipBytes).take headerSize =
      salt.toList ++ xorAt (stream ssl key salt) 0 (headerRest ssl key salt) := by
  have hsplit : image ssl key salt data =
      magic ++ ((salt.toList ++ xorAt (stream ssl key salt) 0 (headerRest ssl key salt)) ++
        xorAt (stream ssl key salt) (0 + (headerRest ssl key salt).length) data) := by
    simp only [image, prologue, xorAt_append, List.append_assoc]
  have hmagic : kSkipBytes = magic.length := rfl
  have hlen : headerSize =
      (salt.toList ++ xorAt (stream ssl key salt) 0 (headerRest ssl key salt)).length := by
    simp [headerSize]
  rw [hsplit, hmagic, List.drop_left, hlen, List.take_left]

/-- The decrypted header and its checksum. -/
theorem header_take_drop (ssl : OpenSSL) (key : EncryptionKey) (salt : Salt) :
    (salt.toList ++ headerRest ssl key salt).take 80 = salt.toList ++ headerFields ∧
      (salt.toList ++ headerRest ssl key salt).drop 80 =
        (ssl.sha256 (key.data.toList ++ (salt.toList ++ headerFields))).toList := by
  have hsplit : salt.toList ++ headerRest ssl key salt = (salt.toList ++ headerFields) ++
      (ssl.sha256 (key.data.toList ++ (salt.toList ++ headerFields))).toList := by
    simp [headerRest]
  rw [hsplit]
  exact ⟨List.take_left' (by simp), List.drop_left' (by simp)⟩

theorem header_format (ssl : OpenSSL) (key : EncryptionKey) (salt : Salt) :
    (salt.toList ++ headerRest ssl key salt).getD kSaltSize 0 = 0 := by
  have hhead : headerRest ssl key salt = 0 :: (headerRest ssl key salt).tail := rfl
  have hsalt : salt.toList.length ≤ kSaltSize := by simp [kSaltSize]
  rw [hhead, List.getD_eq_getElem?_getD, List.getElem?_append_right hsalt]
  simp [kSaltSize]

/-- An open file at the start of an array. -/
def openedFile (ssl : OpenSSL) (key : EncryptionKey) (salt : Salt) (mode : OpenMode)
    (data : List UInt8) : File where
  data := { content := image ssl key salt data, pos := 116, mode := some mode }
  encryptionOffset := 48
  dataSize := data.length
  state := some (key.prepareCtrState ssl salt)

theorem refines_openedFile (mode : OpenMode) {data : List UInt8}
    (hwhole : data.length % kBlockSize = 0) :
    Refines ssl key salt (openedFile ssl key salt mode data)
      { data, cursor := 0, mode := some mode } where
  content := rfl
  mode := rfl
  whole := hwhole
  cursor_le := Nat.zero_le _
  opened _ := ⟨rfl, rfl, rfl, rfl⟩
  closed hnone := by simp at hnone

/-- The checksum of an image always matches, so reopening shows the whole array from its start. -/
theorem readHeader_image (mode : OpenMode) (hmode : mode.readable = true) {data : List UInt8}
    (hwhole : data.length % kBlockSize = 0) :
    File.readHeader ssl key
      { data := { content := image ssl key salt data, pos := 0, mode := some mode },
        encryptionOffset := 0, dataSize := 0, state := none } =
      some (.success, openedFile ssl key salt mode data) := by
  have hlen : (((image ssl key salt data).drop kSkipBytes).take headerSize).length = 112 := by
    simp [header_image]
  have hread : QFile.read headerSize
      { content := image ssl key salt data, pos := kSkipBytes, mode := some mode } =
        some (salt.toList ++ xorAt (stream ssl key salt) 0 (headerRest ssl key salt),
          (openedFile ssl key salt mode data).data) := by
    simp only [QFile.read, QFile.canRead, Option.any_some, hmode, if_true, hlen]
    rw [header_image]
    rfl
  have hdecrypt := Refines.decrypt_eq ssl key salt
    { openedFile ssl key salt mode data with encryptionOffset := 0, dataSize := 0 } (o := 0)
    rfl rfl (by decide) (xorAt (stream ssl key salt) 0 (headerRest ssl key salt))
    (by simp [kBlockSize])
  have hsalt : salt.toList.length = kSaltSize := by simp [kSaltSize]
  have hsplit : ∀ rest : List UInt8, (salt.toList ++ rest).take kSaltSize = salt.toList ∧
      (salt.toList ++ rest).drop kSaltSize = rest := fun rest =>
    ⟨List.take_left' hsalt, List.drop_left' hsalt⟩
  have hbytes : (salt.toList ++ xorAt (stream ssl key salt) 0 (headerRest ssl key salt)).length =
      headerSize := by simp [headerSize]
  have hsize : (openedFile ssl key salt mode data).data.content.length - headerSize - kSkipBytes =
      data.length := by
    change (image ssl key salt data).length - headerSize - kSkipBytes = data.length
    rw [length_image, headerSize, kSkipBytes]
    omega
  obtain ⟨htake, hdrop⟩ := header_take_drop ssl key salt
  have hcheck : headerSize - 32 = 80 := rfl
  have hfile : File.mk (openedFile ssl key salt mode data).data 0 0
      (some (key.prepareCtrState ssl salt)) =
        { openedFile ssl key salt mode data with encryptionOffset := 0, dataSize := 0 } := rfl
  simp only [File.readHeader, QFile.seek, Option.isSome_some, if_true, hread, hbytes, ne_eq,
    not_true, if_false, saltOf_append, (hsplit _).1, (hsplit _).2, hfile, hdecrypt, xorAt_xorAt,
    Option.bind_eq_bind, Option.bind_some, hcheck, htake, hdrop, header_format, hsize, hwhole,
    length_xorAt, length_headerRest, Nat.zero_add, Nat.sub_zero]
  rfl

/-- Opening an image in either reading mode. -/
theorem Refines.open_eq (h : Refines ssl key salt f p) (append : Bool) :
    f.open ssl (if append then .readAppend else .read) key (File.OpenEnv.granted salt) =
      some (.success,
        openedFile ssl key salt (if append then .readWrite else .readOnly) p.data) := by
  have hlen : (image ssl key salt p.data).length ≠ 0 := by
    rw [length_image]
    omega
  have hnil : image ssl key salt p.data ≠ [] := List.ne_nil_of_length_pos (by omega)
  cases append with
  | true =>
    simp [File.open, File.attemptOpen, File.attemptOpenForReadAppend, File.OpenEnv.granted,
      File.close, QFile.open, QFile.close, h.content, hnil,
      readHeader_image .readWrite rfl h.whole]
  | false =>
    simp [File.open, File.attemptOpen, File.attemptOpenForRead, File.OpenEnv.granted,
      File.close, QFile.open, QFile.close, h.content,
      readHeader_image .readOnly rfl h.whole]

theorem Refines.perform_reopen (h : Refines ssl key salt f p) (append : Bool) :
    Option.Rel (SameCall ssl key salt) (f.perform ssl key salt (.reopen append))
      (p.perform (.reopen append)) := by
  simp only [File.perform, PlainFile.perform, h.open_eq append]
  exact .some ⟨rfl, refines_openedFile _ h.whole⟩

theorem Refines.perform_read (h : Refines ssl key salt f p) (n : ℕ) :
    Option.Rel (SameCall ssl key salt) (f.perform ssl key salt (.read n))
      (p.perform (.read n)) := by
  by_cases hr : p.canRead = true
  · by_cases hn : n % kBlockSize = 0
    · by_cases hc : p.cursor % kBlockSize = 0 ∨ p.peek n = []
      · simp only [File.perform, PlainFile.perform, h.canRead_eq, hr, hn, hc, and_self, if_true,
          h.read_eq hr hn hc]
        exact .some ⟨rfl, h.read hr n⟩
      · have hnone := h.read_none hr (fun h₁ => hc (.inl h₁)) fun h₂ => hc (.inr h₂)
        simp only [File.perform, PlainFile.perform, h.canRead_eq, hr, hc, and_false, if_true,
          if_false, hnone]
        exact .none
    · simp only [File.perform, PlainFile.perform, h.canRead_eq, hr, if_true, File.read, hn, ne_eq,
        not_false_eq_true, false_and, if_false]
      exact .none
  · have hr' : p.canRead = false := eq_false_of_ne_true hr
    simp only [File.perform, PlainFile.perform, h.canRead_eq, hr', Bool.false_eq_true, and_false,
      false_and, if_false]
    exact .none

/-- A partial block at the end of a read is cut from the padded block behind it. -/
theorem peek_split {p : PlainFile} {n : ℕ} (hwhole : p.data.length % kBlockSize = 0)
    (hc : p.cursor % kBlockSize = 0) (hn : n % kBlockSize = 0) (hfull : (p.peek n).length = n) :
    p.peek (n + kBlockSize) = p.peek n ++ (p.read n).2.peek kBlockSize := by
  have hcursor : (p.cursor + n) % kBlockSize = 0 := by
    simp only [kBlockSize] at *
    omega
  have hnext : (p.read n).2.peek kBlockSize = (p.data.drop (p.cursor + n)).take kBlockSize := by
    have hq : (p.read n).2 = { p with cursor := p.cursor + n } := by simp [PlainFile.read, hfull]
    rw [hq, PlainFile.peek_eq (p := { p with cursor := p.cursor + n }) (Nat.mod_self _) hwhole hcursor]
  rw [hnext, PlainFile.peek_eq hn hwhole hc,
    PlainFile.peek_eq (by simpa [kBlockSize] using hn) hwhole hc, List.take_add, List.drop_drop]

/-- A read that comes up short has reached the end. -/
theorem peek_short {p : PlainFile} {n : ℕ} (hwhole : p.data.length % kBlockSize = 0)
    (hc : p.cursor % kBlockSize = 0) (hn : n % kBlockSize = 0) (hshort : (p.peek n).length ≠ n) :
    p.peek (n + kBlockSize) = p.peek n := by
  have hn' : (n + kBlockSize) % kBlockSize = 0 := by simpa [kBlockSize] using hn
  rw [PlainFile.peek_eq hn hwhole hc] at hshort
  rw [PlainFile.peek_eq hn hwhole hc, PlainFile.peek_eq hn' hwhole hc]
  have hlen : (p.data.drop p.cursor).length ≤ n := by
    simp only [List.length_take] at hshort
    omega
  rw [List.take_of_length_le hlen, List.take_of_length_le (by omega)]

/-- One block is read whole or not at all. -/
theorem length_peek_block {p : PlainFile} (hwhole : p.data.length % kBlockSize = 0)
    (hc : p.cursor % kBlockSize = 0) :
    p.peek kBlockSize = [] ∨ (p.peek kBlockSize).length = kBlockSize := by
  rw [PlainFile.peek_eq (Nat.mod_self _) hwhole hc, ← List.length_eq_zero_iff]
  simp only [List.length_take, List.length_drop, kBlockSize] at *
  omega

@[simp] theorem moved_moved (q r : PlainFile) :
    moved ssl key salt (moved ssl key salt f q) r = moved ssl key salt f r := rfl

theorem Refines.lastBlock_eq (h : Refines ssl key salt f p) (hr : p.canRead = true)
    (hc : p.cursor % kBlockSize = 0) (head : List UInt8) (part : ℕ) :
    (do
      let (padded, f) ← f.read ssl kBlockSize
      if padded.length = 0 then some (head, f)
      else if padded.length = kBlockSize then some (head ++ padded.take part, f)
      else none) =
    some (head ++ (p.peek kBlockSize).take part,
      FileRefinement.moved ssl key salt f (p.read kBlockSize).2) := by
  rw [h.read_eq hr (Nat.mod_self _) (.inl hc)]
  rcases length_peek_block h.whole hc with hnil | hfull
  · simp [hnil]
  · have hne : p.peek kBlockSize ≠ [] := by
      intro hnil
      rw [hnil] at hfull
      cases hfull
    simp [hfull, hne]

/-- The whole blocks and the last block of a padded read, together. -/
theorem Refines.readWithPadding_eq (h : Refines ssl key salt f p) (hr : p.canRead = true) {n : ℕ}
    (hn : n ≠ 0) (hc : p.cursor % kBlockSize = 0) :
    f.readWithPadding ssl n =
      some ((p.peek (n + (kBlockSize - n % kBlockSize) % kBlockSize)).take n,
        FileRefinement.moved ssl key salt f
          (p.read (n + (kBlockSize - n % kBlockSize) % kBlockSize)).2) := by
  set good := n - n % kBlockSize with hgood
  have hsum : good + n % kBlockSize = n := Nat.sub_add_cancel (Nat.mod_le _ _)
  have hgood16 : good % kBlockSize = 0 := by simp only [hgood, kBlockSize]; omega
  by_cases hpart : n % kBlockSize = 0
  · have hwhole : n + (kBlockSize - n % kBlockSize) % kBlockSize = n := by
      rw [hpart, Nat.sub_zero, Nat.mod_self, Nat.add_zero]
    have htake : (p.peek n).take n = p.peek n := by
      apply List.take_of_length_le
      simp only [PlainFile.peek, List.length_take]
      omega
    rw [hwhole, htake, File.readWithPadding]
    simp [hpart, hn, h.read_eq hr hpart (.inl hc)]
  · have hwhole : n + (kBlockSize - n % kBlockSize) % kBlockSize = good + kBlockSize := by
      simp only [hgood, kBlockSize] at *
      omega
    rw [hwhole]
    by_cases hzero : good = 0
    · have hlast := h.lastBlock_eq hr hc [] (n % kBlockSize)
      have hnp : n % kBlockSize = n := by omega
      simp only [File.readWithPadding, ← hgood, hzero, if_true, hpart, if_false]
      rw [hlast, hnp, Nat.zero_add, List.nil_append]
    · have hfirst := h.read_eq hr hgood16 (.inl hc)
      simp only [File.readWithPadding, ← hgood, hzero, if_false, hpart, hfirst,
        Option.bind_eq_bind, Option.bind_some]
      by_cases hfull : (p.peek good).length = good
      · have hcursor : (p.read good).2.cursor % kBlockSize = 0 := by
          simp only [PlainFile.read, hfull, kBlockSize] at *
          omega
        have hlast := (h.read hr good).lastBlock_eq hr hcursor (p.peek good) (n % kBlockSize)
        have hsplit := peek_split h.whole hc hgood16 hfull
        have htake : (p.peek (good + kBlockSize)).take n =
            p.peek good ++ ((p.read good).2.peek kBlockSize).take (n % kBlockSize) := by
          rw [hsplit, List.take_append, hfull, List.take_of_length_le (by omega),
            show n - good = n % kBlockSize by omega]
        have hread : (p.read (good + kBlockSize)).2 = ((p.read good).2.read kBlockSize).2 := by
          simp only [PlainFile.read, hsplit, List.length_append, Nat.add_assoc]
        simp only [Option.bind_eq_bind, moved_moved] at hlast
        rw [if_pos hfull, htake, hread, ← hlast]
      · have hshort := peek_short h.whole hc hgood16 hfull
        have htake : (p.peek good).take n = p.peek good := by
          apply List.take_of_length_le
          simp only [PlainFile.peek, List.length_take]
          omega
        simp only [if_neg hfull, hshort, htake, PlainFile.read]

/-- Inside a block a padded read stands or falls with its first block. -/
theorem Refines.readWithPadding_inside (h : Refines ssl key salt f p) (hr : p.canRead = true)
    {n : ℕ} (hn : n ≠ 0) (hc : p.cursor % kBlockSize ≠ 0) :
    f.readWithPadding ssl n =
      if p.peek kBlockSize = [] then some ([], FileRefinement.moved ssl key salt f p) else none := by
  set good := n - n % kBlockSize with hgood
  have hgood16 : good % kBlockSize = 0 := by simp only [hgood, kBlockSize]; omega
  have hread : ∀ m, m ≠ 0 → m % kBlockSize = 0 → f.read ssl m =
      if p.peek kBlockSize = [] then some ([], FileRefinement.moved ssl key salt f p) else none := by
    intro m hm hm16
    split
    · next hnil =>
      have hnil' := PlainFile.peek_eq_nil hnil m
      rw [h.read_eq hr hm16 (.inr hnil'), PlainFile.read, hnil']
      simp
    · next hne =>
      apply h.read_none hr hc
      intro hnil
      apply hne
      have hlen := congrArg List.length hnil
      apply List.eq_nil_of_length_eq_zero
      simp only [PlainFile.peek, List.length_take, List.length_drop, List.length_nil,
        kBlockSize] at *
      omega
  by_cases hzero : good = 0
  · have hpart : n % kBlockSize ≠ 0 := by omega
    simp only [File.readWithPadding, ← hgood, hzero, if_true, hpart, if_false,
      hread kBlockSize (by decide) (Nat.mod_self _)]
    split <;> rfl
  · simp only [File.readWithPadding, ← hgood, hzero, if_false, hread good hzero hgood16]
    split
    · simp [Ne.symm hzero]
    · rfl

theorem Refines.perform_readWithPadding (h : Refines ssl key salt f p) (n : ℕ) :
    Option.Rel (SameCall ssl key salt) (f.perform ssl key salt (.readWithPadding n))
      (p.perform (.readWithPadding n)) := by
  by_cases hn : n = 0
  · subst hn
    simp only [File.perform, PlainFile.perform, true_or, if_true]
    exact .some ⟨rfl, h⟩
  by_cases hr : p.canRead = true
  · by_cases hc : p.cursor % kBlockSize = 0
    · simp only [File.perform, PlainFile.perform, h.canRead_eq, hr, hn, hc, false_or, true_or,
        and_self, if_true, if_false, h.readWithPadding_eq hr hn hc]
      exact .some ⟨rfl, h.read hr _⟩
    · simp only [File.perform, PlainFile.perform, h.canRead_eq, hr, hn, hc, false_or, or_true,
        true_and, if_true, if_false, h.readWithPadding_inside hr hn hc]
      split
      · next hnil =>
        simp only [PlainFile.readWithPadding, PlainFile.peek_eq_nil hnil, PlainFile.read,
          List.take_nil, List.length_nil, Nat.add_zero]
        exact .some ⟨rfl, h.moved (isSome_of_canRead hr) rfl h.whole h.cursor_le⟩
      · exact .none
  · have hr' : p.canRead = false := eq_false_of_ne_true hr
    simp only [File.perform, PlainFile.perform, h.canRead_eq, hr', hn, Bool.false_eq_true,
      false_and, or_self, if_false]
    exact .none

/-- The whole blocks and the filled last block land as one stretch. -/
theorem Refines.writeWithPadding_eq (h : Refines ssl key salt f p) (hw : p.canWrite = true)
    (hc : p.cursor % kBlockSize = 0) (padding : Block) {bytes : List UInt8} (hne : bytes ≠ []) :
    (f.writeWithPadding ssl (fun _ => none) padding bytes).map (fun r => (r.1, r.2.2)) =
      some (true, FileRefinement.moved ssl key salt f
        (p.write none (PlainFile.padded padding bytes)).2) := by
  set part := bytes.length % kBlockSize with hpart
  set good := bytes.length - part with hgood
  have hsum : good + part = bytes.length := Nat.sub_add_cancel (Nat.mod_le _ _)
  have hgood16 : good % kBlockSize = 0 := by simp only [hgood, hpart, kBlockSize]; omega
  have hpos : bytes.length ≠ 0 := by simpa using hne
  have hhead : (bytes.take good).length = good := by
    rw [List.length_take]
    omega
  have htake16 : (bytes.take good).length % kBlockSize = 0 := by rw [hhead]; exact hgood16
  have hfirst := h.write_eq hw hc htake16
  by_cases hzero : part = 0
  · have hgn : good = bytes.length := by omega
    have htake : bytes.take good = bytes := List.take_of_length_le (by omega)
    have hpadded : PlainFile.padded padding bytes = bytes := if_pos (hpart ▸ hzero)
    rw [htake] at hfirst
    simp only [File.writeWithPadding, ← hpart, hpos, hzero, Nat.sub_zero, if_false, if_true,
      List.take_length, hfirst, Option.bind_eq_bind, Option.bind_some, hpadded, Option.map_some]
  · have hpadded : PlainFile.padded padding bytes =
        bytes.take good ++ (bytes.drop good ++ padding.toList.drop part) := by
      rw [← List.append_assoc, List.take_append_drop]
      exact if_neg (hpart ▸ hzero)
    have htail : (bytes.drop good ++ padding.toList.drop part).length % kBlockSize = 0 := by
      simp only [List.length_append, List.length_drop, Vector.length_toList, kBlockSize] at *
      omega
    by_cases hnone : good = 0
    · have hone := h.write_eq hw hc htail
      simp only [hnone, List.drop_zero] at hone
      simp only [File.writeWithPadding, ← hpart, ← hgood, hnone, hzero, if_true, if_false, hone,
        Option.bind_eq_bind, Option.bind_some, Option.map_some, hpadded, List.take_zero,
        List.drop_zero, List.nil_append]
    · have hnext := h.write hw hc htake16
      have hcursor : (p.write none (bytes.take good)).2.cursor % kBlockSize = 0 := by
        simp only [PlainFile.write_none, hhead, kBlockSize] at *
        omega
      have hcan : (p.write none (bytes.take good)).2.canWrite = true := by
        rw [PlainFile.write_none]
        exact hw
      have hsecond := hnext.write_eq hcan hcursor htail
      have htwo : ((p.write none (bytes.take good)).2.write none
          (bytes.drop good ++ padding.toList.drop part)).2 =
            (p.write none (PlainFile.padded padding bytes)).2 := by
        simp only [hpadded, PlainFile.write_none, List.length_append, Nat.add_assoc,
          overwrite_overwrite p.data _ _ h.cursor_le]
      simp only [File.writeWithPadding, ← hpart, ← hgood, hnone, hzero, if_false, hfirst,
        Option.bind_eq_bind, Option.bind_some, if_true, hsecond, moved_moved, htwo,
        Option.map_some]

theorem Refines.writeWithPadding_inv (h : Refines ssl key salt f p) {padding : Block}
    {bytes buffer : List UInt8} {f' : File} (hne : bytes ≠ [])
    (hf : f.writeWithPadding ssl (fun _ => none) padding bytes = some (true, buffer, f')) :
    p.canWrite = true ∧ p.cursor % kBlockSize = 0 := by
  have hpos : bytes.length ≠ 0 := by simpa using hne
  have hfirst : ∃ piece head g, f.write ssl none piece = some (true, head, g) := by
    simp only [File.writeWithPadding, Option.bind_eq_bind] at hf
    split at hf
    · next hzero =>
      have hpart : bytes.length % kBlockSize ≠ 0 := by omega
      simp only [hpart, if_false, hzero, Option.bind_eq_some_iff] at hf
      obtain ⟨⟨written, head, g⟩, hwrite, hrest⟩ := hf
      cases written with
      | true => exact ⟨_, _, _, hwrite⟩
      | false => simp at hrest
    · rw [Option.bind_eq_some_iff] at hf
      obtain ⟨⟨written, head, g⟩, hwrite, hrest⟩ := hf
      cases written with
      | true => exact ⟨_, _, _, hwrite⟩
      | false => simp at hrest
  obtain ⟨piece, head, g, hwrite⟩ := hfirst
  exact (h.write_inv hwrite).2

theorem Refines.perform_writeWithPadding (h : Refines ssl key salt f p) (padding : Block)
    (bytes : List UInt8) :
    Option.Rel (SameCall ssl key salt) (f.perform ssl key salt (.writeWithPadding padding bytes))
      (p.perform (.writeWithPadding padding bytes)) := by
  by_cases hne : bytes = []
  · subst hne
    exact .some ⟨rfl, h⟩
  by_cases hcan : p.canWrite = true ∧ p.cursor % kBlockSize = 0
  · obtain ⟨hw, hc⟩ := hcan
    have hmap := h.writeWithPadding_eq hw hc padding hne
    rw [Option.map_eq_some_iff] at hmap
    obtain ⟨⟨_, buffer, _⟩, hf, heq⟩ := hmap
    cases heq
    simp only [File.perform, PlainFile.perform, hf, hne, hw, hc, and_self, if_true, if_false]
    exact .some ⟨rfl, h.write hw hc (PlainFile.length_padded padding bytes)⟩
  · simp only [File.perform, PlainFile.perform, if_neg hcan, if_neg hne]
    rcases hf : f.writeWithPadding ssl (fun _ => none) padding bytes with _ | ⟨_ | _, buffer, f'⟩
    · exact .none
    · exact .none
    · exact absurd (h.writeWithPadding_inv hne hf) hcan

/-- Every call keeps the representation and shows what the array shows. -/
theorem Refines.perform (h : Refines ssl key salt f p) (op : FileOp) :
    Option.Rel (SameCall ssl key salt) (f.perform ssl key salt op) (p.perform op) := by
  cases op with
  | write bytes => exact h.perform_write bytes
  | writeWithPadding padding bytes => exact h.perform_writeWithPadding padding bytes
  | seek offset => exact h.perform_seek offset
  | read n => exact h.perform_read n
  | readWithPadding n => exact h.perform_readWithPadding n
  | close => exact .some ⟨rfl, h.close⟩
  | reopen append => exact h.perform_reopen append

theorem Refines.run (h : Refines ssl key salt f p) (ops : List FileOp) :
    f.run ssl key salt ops = p.run ops := by
  induction ops generalizing f p with
  | nil => rfl
  | cons op ops ih =>
    have hrel := h.perform op
    simp only [File.run, PlainFile.run]
    generalize f.perform ssl key salt op = x at hrel ⊢
    generalize p.perform op = y at hrel ⊢
    cases hrel with
    | none => rfl
    | some hsame =>
      obtain ⟨hbytes, hnext⟩ := hsame
      simp only [Option.bind_eq_bind, Option.bind_some, hbytes, ih hnext, hnext.offset_eq,
        hnext.size_eq]

/-- Writing at the end of the device appends. -/
theorem append_device (content bytes : List UInt8) :
    QFile.write none bytes { content, pos := content.length, mode := some .writeOnly } =
      ((bytes.length : ℤ), {
        content := content ++ bytes
        pos := content.length + bytes.length
        mode := some .writeOnly }) := by
  simp [QFile.write, QFile.canWrite, OpenMode.writable, overwrite_length]

/-- The encrypted part of the header goes behind the salt. -/
theorem write_headerRest (ssl : OpenSSL) (key : EncryptionKey) (salt : Salt) :
    File.write ssl none (headerRest ssl key salt)
      (.mk { content := prologue salt, pos := (prologue salt).length, mode := some .writeOnly } 0 0
        (some (key.prepareCtrState ssl salt))) =
      some (true, xorAt (stream ssl key salt) 0 (headerRest ssl key salt),
        openedFile ssl key salt .writeOnly []) := by
  have hlen : (headerRest ssl key salt).length % kBlockSize = 0 := by simp [kBlockSize]
  have henc := CtrState.process_eq ssl (key.prepareCtrState ssl salt) hlen
    (Nat.zero_mod _)
  have hrest := append_device (prologue salt)
    (xorAt (stream ssl key salt) 0 (headerRest ssl key salt))
  simp only [length_xorAt, length_headerRest, length_prologue, stream] at hrest
  simp [File.write, kBlockSize, File.isOpen, File.encrypt, CtrState.encrypt, henc, File.writePlain,
    hrest, openedFile, image, File.offset, kSaltSize, headerSize, stream]

theorem writeHeader_eq (ssl : OpenSSL) (key : EncryptionKey) (salt : Salt) :
    File.writeHeader ssl key (File.OpenEnv.granted salt)
      (.mk { content := [], pos := 0, mode := some .writeOnly } 0 0 none) =
      some (true, openedFile ssl key salt .writeOnly []) := by
  have hmagic := append_device [] magic
  have hsalt := append_device magic salt.toList
  simp only [List.nil_append, List.length_nil, Nat.zero_add] at hmagic
  have hrest : headerFields ++ (ssl.sha256 (key.data.toList ++
      (salt.toList ++ headerFields))).toList = headerRest ssl key salt := rfl
  have hpos : magic.length + salt.toList.length = (prologue salt).length := by simp [magic]
  simp only [File.writeHeader, File.writePlain, File.OpenEnv.granted, hmagic, hsalt, hpos, hrest]
  change (if _ then _ else if _ then _ else Option.bind (File.write ssl none
    (headerRest ssl key salt) (.mk { content := prologue salt, .. } 0 0 _)) _) = _
  rw [write_headerRest]
  simp [magic, kSaltSize]
  rfl

/-- A file opened for writing holds a new header and an empty array. -/
theorem open_write (ssl : OpenSSL) (key : EncryptionKey) (salt : Salt) (f : File) :
    f.open ssl .write key (File.OpenEnv.granted salt) =
      some (.success, openedFile ssl key salt .writeOnly []) := by
  have hheader := writeHeader_eq ssl key salt
  simp only [File.OpenEnv.granted] at hheader
  simp [File.open, File.attemptOpen, File.attemptOpenForWrite, File.OpenEnv.granted, File.close,
    QFile.open, QFile.close, hheader]

end FileRefinement

/-- In every run of calls on a new file the bytes read, the offsets and the sizes are those of
a plain byte array, and a call succeeds on one exactly when it does on the other. -/
theorem File.run_eq_plain (ssl : OpenSSL) (key : EncryptionKey) (salt : Salt) (f : File)
    (ops : List FileOp) :
    (do
      let (result, f) ← f.open ssl .write key (File.OpenEnv.granted salt)
      if result = .success then f.run ssl key salt ops else none) =
    PlainFile.created.run ops := by
  rw [open_write]
  exact Refines.run (refines_openedFile .writeOnly rfl) ops

end Bettergram.Storage
