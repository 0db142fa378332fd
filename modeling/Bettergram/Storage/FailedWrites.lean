import Bettergram.Storage.EncryptedFile

/-! # Failed writes

A write encrypts the caller's buffer in place before the device is asked for anything. When
the device fails, the buffer is decrypted back and the device goes back to where it was. The
size that the first write of a padded one has reached is not taken back.
-/

namespace Bettergram.Storage
open Foundation

/-- The device can be written and takes all of a write. -/
def QFile.Accepts (limit : Option ℕ) (size : ℕ) (d : QFile) : Prop :=
  d.canWrite = true ∧ taken limit size = size

instance (limit : Option ℕ) (size : ℕ) (d : QFile) : Decidable (d.Accepts limit size) :=
  inferInstanceAs (Decidable (_ ∧ _))

theorem QFile.write_fst (limit : Option ℕ) (bytes : List UInt8) (d : QFile) :
    (d.write limit bytes).1 = bytes.length ↔ d.Accepts limit bytes.length := by
  unfold QFile.write QFile.Accepts
  split_ifs with hcan
  · simp [hcan]
  · exact iff_of_false (by simp only; omega) fun h => hcan h.1

@[simp] theorem QFile.write_mode (limit : Option ℕ) (bytes : List UInt8) (d : QFile) :
    (d.write limit bytes).2.mode = d.mode := by
  unfold QFile.write
  split_ifs <;> rfl

/-- The position moves by what was taken. -/
theorem QFile.write_pos (limit : Option ℕ) (bytes : List UInt8) (d : QFile) :
    (d.write limit bytes).2.pos = d.pos + (d.write limit bytes).1.toNat := by
  unfold QFile.write
  split_ifs <;> simp

theorem QFile.seek_of_open {d : QFile} (h : d.mode.isSome = true) (pos : ℕ) :
    d.seek pos = (true, { d with pos := pos }) := if_pos h

namespace File

variable {ssl : OpenSSL} {f f' : File} {bytes buffer : List UInt8} {limit : Option ℕ}

theorem isOpen_of_canWrite (h : f.data.canWrite = true) : f.isOpen = true := by
  rw [QFile.canWrite] at h
  rw [isOpen]
  cases hmode : f.data.mode with
  | none =>
    rw [hmode] at h
    cases h
  | some mode => rfl

theorem encrypt_inv (h : f.encrypt ssl bytes = some (buffer, f')) :
    ∃ state, f.state = some state ∧ bytes.length % kBlockSize = 0 ∧
      f.encryptionOffset % kBlockSize = 0 ∧
      buffer = xorAt (state.keystream ssl) f.encryptionOffset bytes ∧
      f' = { f with encryptionOffset := f.encryptionOffset + bytes.length } := by
  simp only [File.encrypt, Option.bind_eq_bind, Option.bind_eq_some_iff] at h
  obtain ⟨state, hstate, encrypted, hencrypted, heq⟩ := h
  rw [CtrState.encrypt] at hencrypted
  by_cases haligned : bytes.length % kBlockSize = 0 ∧ f.encryptionOffset % kBlockSize = 0
  · rw [CtrState.process_eq ssl state haligned.1 haligned.2] at hencrypted
    obtain rfl := Option.some.inj hencrypted
    obtain ⟨rfl, rfl⟩ := Prod.mk.inj (Option.some.inj heq)
    exact ⟨state, hstate, haligned.1, haligned.2, rfl, by rw [length_xorAt]⟩
  · rw [CtrState.process_eq_none ssl state haligned] at hencrypted
    cases hencrypted

/-- The keystream offset goes back by what is decrypted. -/
theorem decryptBack_eq {state : CtrState} {start : ℕ} (hstate : f.state = some state)
    (hoffset : f.encryptionOffset = start + buffer.length)
    (hlength : buffer.length % kBlockSize = 0) (hstart : start % kBlockSize = 0) :
    f.decryptBack ssl buffer = some (xorAt (state.keystream ssl) start buffer,
      { f with encryptionOffset := start }) := by
  have hback : f.encryptionOffset - buffer.length = start := by omega
  have hprocess := CtrState.process_eq ssl state hlength hstart
  rw [decryptBack, if_neg (by omega), hback]
  simp [File.decrypt, CtrState.decrypt, hstate, hprocess]

/-- All that a failed write may leave changed is the device's bytes. -/
structure Restored (f f' : File) : Prop where
  encryptionOffset : f'.encryptionOffset = f.encryptionOffset
  dataSize : f'.dataSize = f.dataSize
  state : f'.state = f.state
  pos : f'.data.pos = f.data.pos
  mode : f'.data.mode = f.data.mode

theorem offset_eq (f : File) : f.offset = kSaltSize + f.encryptionOffset - headerSize := by
  unfold File.offset
  simp only
  split_ifs <;> omega

/-- What is left of a write once the buffer is encrypted. -/
theorem write_of_encrypt (hopen : f.isOpen = true) (hlength : bytes.length % kBlockSize = 0)
    (hencrypt : f.encrypt ssl bytes = some (buffer, f')) :
    f.write ssl limit bytes =
      if (f'.data.write limit buffer).1 = bytes.length then
        some (true, buffer, { f' with
          data := (f'.data.write limit buffer).2
          dataSize := max f'.dataSize f'.offset })
      else
        (({ f' with data := (f'.data.write limit buffer).2 } : File).decryptBack ssl buffer).bind
          fun back => some (false, back.1,
            if 0 < (f'.data.write limit buffer).1 then { back.2 with
              data := (back.2.data.seek
                (back.2.data.pos - (f'.data.write limit buffer).1.toNat)).2 }
            else back.2) := by
  rw [File.write, if_neg (not_not.mpr hlength), if_neg (by simp [hopen]), hencrypt]
  rfl

theorem write_inv {written : Bool} (h : f.write ssl limit bytes = some (written, buffer, f')) :
    (written = false ∧ buffer = bytes ∧ Restored f f' ∧ ¬f.data.Accepts limit bytes.length) ∨
      (written = true ∧ f.data.Accepts limit bytes.length ∧ ∃ state, f.state = some state ∧
        bytes.length % kBlockSize = 0 ∧ f.encryptionOffset % kBlockSize = 0 ∧
        buffer = xorAt (state.keystream ssl) f.encryptionOffset bytes ∧
        f' = { f with
          data := (f.data.write limit buffer).2
          encryptionOffset := f.encryptionOffset + bytes.length
          dataSize := max f.dataSize (kSaltSize + (f.encryptionOffset + bytes.length) -
            headerSize) }) := by
  by_cases hlength : bytes.length % kBlockSize = 0
  swap
  · rw [File.write, if_pos hlength] at h
    cases h
  by_cases hopen : f.isOpen = true
  swap
  · rw [File.write, if_neg (not_not.mpr hlength), if_pos (by simpa using hopen)] at h
    simp only [Option.some.injEq, Prod.mk.injEq] at h
    obtain ⟨rfl, rfl, rfl⟩ := h
    refine .inl ⟨rfl, rfl, ⟨rfl, rfl, rfl, rfl, rfl⟩, fun haccepts => hopen ?_⟩
    exact isOpen_of_canWrite haccepts.1
  cases hencrypt : f.encrypt ssl bytes with
  | none => simp [File.write, hlength, hopen, hencrypt] at h
  | some encrypted =>
    obtain ⟨encrypted, f₁⟩ := encrypted
    rw [write_of_encrypt hopen hlength hencrypt] at h
    obtain ⟨state, hstate, -, haligned, rfl, rfl⟩ := encrypt_inv hencrypt
    set encrypted := xorAt (state.keystream ssl) f.encryptionOffset bytes with hencrypted
    have hdata : encrypted.length = bytes.length := length_xorAt _ _ _
    have haccepts := QFile.write_fst limit encrypted f.data
    rw [hdata] at haccepts
    by_cases hcount : (f.data.write limit encrypted).1 = bytes.length
    · rw [if_pos hcount] at h
      simp only [Option.some.injEq, Prod.mk.injEq] at h
      obtain ⟨rfl, rfl, rfl⟩ := h
      refine .inr ⟨rfl, haccepts.mp hcount, state, hstate, hlength, haligned, rfl, ?_⟩
      rw [offset_eq]
    · have hplain : xorAt (state.keystream ssl) f.encryptionOffset encrypted = bytes := by
        rw [hencrypted, xorAt_xorAt]
      have hback : ({ f with
          data := (f.data.write limit encrypted).2
          encryptionOffset := f.encryptionOffset + bytes.length } : File).decryptBack ssl
            encrypted = some (xorAt (state.keystream ssl) f.encryptionOffset encrypted,
              { f with data := (f.data.write limit encrypted).2 }) :=
        decryptBack_eq hstate (by rw [hdata]) (by rwa [hdata]) haligned
      rw [hplain] at hback
      have hpos := QFile.write_pos limit encrypted f.data
      rw [if_neg hcount, hback] at h
      simp only [Option.bind_some, Option.some.injEq, Prod.mk.injEq] at h
      obtain ⟨rfl, rfl, rfl⟩ := h
      refine .inl ⟨rfl, rfl, ?_, mt haccepts.mpr hcount⟩
      have hsome : (f.data.write limit encrypted).2.mode.isSome = true := by
        rw [QFile.write_mode]
        exact hopen
      rw [QFile.seek_of_open hsome]
      split_ifs with htaken
      · exact ⟨rfl, rfl, rfl, by simp only; omega, QFile.write_mode _ _ _⟩
      · exact ⟨rfl, rfl, rfl, by simp only; omega, QFile.write_mode _ _ _⟩

/-- What a failed call has to leave as it was. -/
structure Unchanged (f : File) (bytes buffer : List UInt8) (f' : File) : Prop where
  buffer : buffer = bytes
  offset : f'.offset = f.offset
  size : f'.size = f.size
  pos : f'.data.pos = f.data.pos

theorem Restored.unchanged (h : Restored f f') : Unchanged f bytes bytes f' where
  buffer := rfl
  offset := by rw [offset_eq, offset_eq, h.encryptionOffset]
  size := h.dataSize
  pos := h.pos

/-- The whole blocks are written behind the end of the data, and the last block is not. -/
def LeavesSize (limits : Fin 2 → Option ℕ) (bytes : List UInt8) (f : File) : Prop :=
  let good := bytes.length - bytes.length % kBlockSize
  good ≠ 0 ∧ f.data.Accepts (limits 0) good ∧
    headerSize + f.size < kSaltSize + f.encryptionOffset + good ∧
    bytes.length % kBlockSize ≠ 0 ∧ ¬f.data.Accepts (limits 1) kBlockSize

instance (limits : Fin 2 → Option ℕ) (bytes : List UInt8) (f : File) :
    Decidable (LeavesSize limits bytes f) := inferInstanceAs (Decidable (_ ∧ _ ∧ _ ∧ _ ∧ _))

theorem accepts_congr {d d' : QFile} (h : d'.mode = d.mode) (limit : Option ℕ) (size : ℕ) :
    d'.Accepts limit size ↔ d.Accepts limit size := by
  rw [QFile.Accepts, QFile.Accepts, QFile.canWrite, QFile.canWrite, h]

theorem padded_length (padding : Block) (bytes : List UInt8) :
    (bytes.drop (bytes.length - bytes.length % kBlockSize) ++
      padding.toList.drop (bytes.length % kBlockSize)).length = kBlockSize := by
  have hpart : bytes.length % kBlockSize < kBlockSize := Nat.mod_lt _ (by decide)
  have hle := Nat.mod_le bytes.length kBlockSize
  rw [List.length_append, List.length_drop, List.length_drop, Vector.length_toList]
  change _ + (kBlockSize - _) = _
  omega

/-- The last block fails behind whole blocks that were written: they are decrypted back. -/
theorem lastBlock_restored {limits : Fin 2 → Option ℕ} {head tail padded : List UInt8}
    {f₁ f₂ : File} (hfirst : f.write ssl (limits 0) head = some (true, buffer, f₁))
    (hlast : f₁.write ssl (limits 1) padded = some (false, tail, f₂)) :
    ∃ f₃, f₂.decryptBack ssl buffer = some (head, f₃) ∧
      f₃.encryptionOffset = f.encryptionOffset ∧ f₃.data.mode = f.data.mode ∧
      f₃.data.pos = f.data.pos + head.length ∧
      f₃.dataSize = max f.dataSize (kSaltSize + (f.encryptionOffset + head.length) - headerSize) := by
  obtain ⟨hno, -⟩ | ⟨-, haccepts, state, hstate, hlength, haligned, rfl, rfl⟩ := write_inv hfirst
  · cases hno
  obtain ⟨-, -, hrestored, -⟩ | ⟨hno, -⟩ := write_inv hlast
  · have hdata := length_xorAt (state.keystream ssl) f.encryptionOffset head
    have htaken : (f.data.write (limits 0)
        (xorAt (state.keystream ssl) f.encryptionOffset head)).1 = head.length := by
      rw [← hdata, QFile.write_fst, hdata]
      exact haccepts
    refine ⟨{ f₂ with encryptionOffset := f.encryptionOffset }, ?_, rfl, ?_, ?_, ?_⟩
    · have hback : f₂.decryptBack ssl (xorAt (state.keystream ssl) f.encryptionOffset head) =
          some (xorAt (state.keystream ssl) f.encryptionOffset
              (xorAt (state.keystream ssl) f.encryptionOffset head),
            { f₂ with encryptionOffset := f.encryptionOffset }) :=
        decryptBack_eq (hrestored.state.trans hstate)
          (by rw [hdata]; exact hrestored.encryptionOffset) (by rwa [hdata]) haligned
      rwa [xorAt_xorAt] at hback
    · exact hrestored.mode.trans (QFile.write_mode _ _ _)
    · refine hrestored.pos.trans ((QFile.write_pos _ _ _).trans ?_)
      rw [htaken, Int.toNat_natCast]
    · exact hrestored.dataSize
  · cases hno

/-- A padded write that fails leaves all as it was, but for the size that the whole blocks have
reached when only the last one is not written. -/
theorem writeWithPadding_unchanged_iff {limits : Fin 2 → Option ℕ} {padding : Block}
    {written : Bool}
    (h : f.writeWithPadding ssl limits padding bytes = some (written, buffer, f')) :
    (written = false → Unchanged f bytes buffer f') ↔ ¬LeavesSize limits bytes f := by
  have htail := padded_length padding bytes
  have hle := Nat.mod_le bytes.length kBlockSize
  have htake : (bytes.take (bytes.length - bytes.length % kBlockSize)).length =
      bytes.length - bytes.length % kBlockSize := by
    rw [List.length_take]
    omega
  have hjoin := List.take_append_drop (bytes.length - bytes.length % kBlockSize) bytes
  unfold writeWithPadding at h
  unfold LeavesSize
  simp only at h ⊢
  generalize bytes.drop (bytes.length - bytes.length % kBlockSize) ++
    padding.toList.drop (bytes.length % kBlockSize) = padded at h htail
  by_cases hgood : bytes.length - bytes.length % kBlockSize = 0
  · rw [if_pos hgood] at h
    refine iff_of_true ?_ fun hleaves => hleaves.1 hgood
    rintro rfl
    by_cases hpart : bytes.length % kBlockSize = 0
    · rw [if_pos hpart] at h
      cases h
    · rw [if_neg hpart] at h
      rcases hlast : f.write ssl (limits 1) padded with _ | ⟨_ | _, tail, f₁⟩
      · rw [hlast] at h
        cases h
      · obtain ⟨-, -, hrestored, -⟩ | ⟨hno, -⟩ := write_inv hlast
        · simp only [hlast, hgood, Option.bind_eq_bind, Option.bind_some, Bool.false_eq_true,
            if_false, if_true, List.drop_zero, List.nil_append, Option.some.injEq,
            Prod.mk.injEq] at h
          obtain ⟨-, rfl, rfl⟩ := h
          exact hrestored.unchanged
        · cases hno
      · rw [hlast] at h
        cases h
  · rw [if_neg hgood] at h
    rcases hfirst : f.write ssl (limits 0)
        (bytes.take (bytes.length - bytes.length % kBlockSize)) with _ | ⟨_ | _, head, f₁⟩
    · rw [hfirst] at h
      cases h
    · obtain ⟨-, rfl, hrestored, hnot⟩ | ⟨hno, -⟩ := write_inv hfirst
      · rw [hfirst] at h
        simp only [Option.bind_eq_bind, Option.bind_some, Bool.false_eq_true, if_false, hjoin,
          Option.some.injEq, Prod.mk.injEq] at h
        obtain ⟨-, rfl, rfl⟩ := h
        rw [htake] at hnot
        exact iff_of_true (fun _ => hrestored.unchanged) fun hleaves => hnot hleaves.2.1
      · cases hno
    · obtain ⟨hno, -⟩ | ⟨-, haccepts, -, -, -, -, -, hf₁⟩ := write_inv hfirst
      · cases hno
      have hmode : f₁.data.mode = f.data.mode := by
        rw [hf₁]
        exact QFile.write_mode _ _ _
      rw [htake] at haccepts
      rw [hfirst] at h
      simp only [Option.bind_eq_bind, Option.bind_some, if_true] at h
      by_cases hpart : bytes.length % kBlockSize = 0
      · rw [if_pos hpart] at h
        obtain ⟨rfl, -⟩ := Prod.mk.inj (Option.some.inj h)
        exact iff_of_true (fun hno => absurd hno (by simp)) fun hleaves => hleaves.2.2.2.1 hpart
      rw [if_neg hpart] at h
      rcases hlast : f₁.write ssl (limits 1) padded with _ | ⟨_ | _, tail, f₂⟩
      · rw [hlast] at h
        cases h
      · obtain ⟨-, -, -, hnot⟩ | ⟨hno, -⟩ := write_inv hlast
        · obtain ⟨f₃, hback, hoffset, hmode₃, hpos, hsize⟩ := lastBlock_restored hfirst hlast
          have hopen : f₃.data.mode.isSome = true := by
            rw [hmode₃]
            exact isOpen_of_canWrite haccepts.1
          rw [htail, accepts_congr hmode] at hnot
          rw [hlast] at h
          simp only [Option.bind_some, Bool.false_eq_true, if_false, if_neg hgood, hback,
            QFile.seek_of_open hopen, hjoin, Option.some.injEq, Prod.mk.injEq] at h
          obtain ⟨rfl, rfl, rfl⟩ := h
          rw [htake] at hpos hsize
          constructor
          · intro hunchanged hleaves
            have hsame := (hunchanged rfl).size
            have hbound := hleaves.2.2.1
            simp only [File.size] at hsame hbound
            omega
          · intro hfits _
            refine ⟨rfl, ?_, ?_, ?_⟩
            · rw [offset_eq, offset_eq, hoffset]
            · have hbound : ¬headerSize + f.size < kSaltSize + f.encryptionOffset +
                  (bytes.length - bytes.length % kBlockSize) := fun hlt =>
                hfits ⟨hgood, haccepts, hlt, hpart, hnot⟩
              simp only [File.size] at hbound ⊢
              omega
            · simp only
              omega
        · cases hno
      · obtain ⟨hno, -⟩ | ⟨-, hlastAccepts, -⟩ := write_inv hlast
        · cases hno
        rw [htail, accepts_congr hmode] at hlastAccepts
        rw [hlast] at h
        simp only [Option.bind_some, if_true, Option.some.injEq, Prod.mk.injEq] at h
        obtain ⟨rfl, -⟩ := h
        exact iff_of_true (fun hno => absurd hno (by simp)) fun hleaves =>
          hleaves.2.2.2.2 hlastAccepts

/-- A failed write leaves all as it was; a failed padded one does exactly when it does not
leave the size of the whole blocks. -/
theorem failed_writes_unchanged_iff (ssl : OpenSSL) (f : File) :
    (∀ limit bytes buffer f', f.write ssl limit bytes = some (false, buffer, f') →
      Unchanged f bytes buffer f') ∧
    ∀ limits padding bytes written buffer f',
      f.writeWithPadding ssl limits padding bytes = some (written, buffer, f') →
        ((written = false → Unchanged f bytes buffer f') ↔ ¬LeavesSize limits bytes f) := by
  refine ⟨fun limit bytes buffer f' h => ?_, fun limits padding bytes written buffer f' h =>
    writeWithPadding_unchanged_iff h⟩
  obtain ⟨-, rfl, hrestored, -⟩ | ⟨hno, -⟩ := write_inv h
  · exact hrestored.unchanged
  · cases hno

/-- A file just created, and 17 bytes of which the device takes only the first 16: the call
fails, and the size is 16. -/
theorem writeWithPadding_leaves_size :
    let ssl : OpenSSL := ⟨fun _ block => block, fun _ => Vector.replicate 32 0⟩
    let env : OpenEnv := ⟨true, true, true, Vector.replicate 64 0, fun _ => none⟩
    let closed : File := ⟨⟨[], 0, none⟩, 0, 0, none⟩
    ∃ f buffer f', closed.open ssl .write ⟨Vector.replicate 256 0⟩ env = some (.success, f) ∧
      f.writeWithPadding ssl (fun i => if i = 0 then none else some 0) (Vector.replicate 16 0)
        (List.replicate 17 7) = some (false, buffer, f') ∧ f.size = 0 ∧ f'.size = 16 :=
  ⟨_, _, _, rfl, rfl, by decide, by decide⟩

end File

end Bettergram.Storage
