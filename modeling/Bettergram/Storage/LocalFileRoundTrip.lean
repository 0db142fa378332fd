import Bettergram.Storage.LocalFileBytes
import Mathlib.Data.List.Induction

/-! # A complete local file is read back

The reader accepts a complete file whose size fits its `int32`, with the bytes
of the stream as the data, and the stream gives the arrays again.
-/

namespace Bettergram.Storage.Local

open Foundation Core FileWriteDescriptor

variable {transform : Compression}

/-- The whole file can be held in one array. -/
def Fits (arrays : List QByteArray) : Prop := (streamBytes arrays).length + 24 < 2 ^ 31

instance (arrays : List QByteArray) : Decidable (Fits arrays) := Nat.decLt _ _

theorem wordBytes_ofNat_length (n : ℕ) : wordBytes (Int32.ofNat n) = leBytes 4 n := by
  have htoNat : (Int32.ofNat n).toUInt32.toNat = n % 256 ^ 4 := by
    rw [Int32.toUInt32_ofNat', UInt32.toNat_ofNat']
    norm_num
  rw [wordBytes, htoNat, leBytes_mod]

theorem fed_fedMd5 {arrays : List QByteArray} (hfits : Fits arrays) :
    HashMd5.Fed transform (fedMd5 transform arrays) (streamBytes arrays) := by
  induction arrays using List.reverseRecOn with
  | nil => exact HashMd5.fed_init transform
  | append_singleton arrays data ih =>
    unfold Fits at hfits ih
    rw [streamBytes_append, List.length_append, length_arrayBytes] at hfits
    have hlength : (lengthBytes data).length < 2 ^ 32 := by
      rw [length_lengthBytes]
      decide
    have hdata : data.bytes.length < 2 ^ 32 := by omega
    have hfed := ((ih (by omega)).feed hlength).feed hdata
    rw [List.append_assoc] at hfed
    rw [streamBytes_append, fedMd5, List.foldl_append]
    exact hfed

/-- Fed in pieces or at once, the signature is the same. -/
theorem signature_eq {arrays : List QByteArray} (hfits : Fits arrays) :
    signature transform arrays =
      ((((HashMd5.init.feed transform (streamBytes arrays)).feed transform
        (leBytes 4 (streamBytes arrays).length)).feed transform
          (wordBytes appVersion)).feed transform tdfMagic).result transform := by
  have hfour : ∀ n, (leBytes 4 n).length < 2 ^ 32 := by
    intro n
    rw [length_leBytes]
    decide
  have hstream : (streamBytes arrays).length < 2 ^ 32 := by
    unfold Fits at hfits
    omega
  have htail : ∀ {h : HashMd5} {bytes}, HashMd5.Fed transform h bytes →
      HashMd5.Fed transform (((h.feed transform (leBytes 4 (streamBytes arrays).length)).feed
        transform (wordBytes appVersion)).feed transform tdfMagic)
        (bytes ++ leBytes 4 (streamBytes arrays).length ++ wordBytes appVersion ++ tdfMagic) :=
    fun hfed => ((hfed.feed (hfour _)).feed (hfour _)).feed (by decide)
  rw [signature, wordBytes_ofNat_length]
  exact (htail (fed_fedMd5 hfits)).result_eq
    (htail ((HashMd5.fed_init transform).feed hstream))

/-- The reader accepts the complete file. -/
theorem readCopy_completeFile {arrays : List QByteArray} (hfits : Fits arrays) :
    readCopy transform (completeFile transform arrays) =
      some ⟨appVersion, streamBytes arrays⟩ := by
  have hmagic : (completeFile transform arrays).take 4 = tdfMagic := by
    rw [completeFile, List.append_assoc, List.append_assoc]
    exact List.take_left' rfl
  have hafter : (completeFile transform arrays).drop 4 =
      wordBytes appVersion ++ (streamBytes arrays ++ signature transform arrays) := by
    rw [completeFile, List.append_assoc, List.append_assoc]
    exact List.drop_left' rfl
  have hword : ((completeFile transform arrays).drop 4).take 4 = wordBytes appVersion := by
    rw [hafter]
    exact List.take_left' (length_leBytes 4 _)
  have hrest : (completeFile transform arrays).drop 8 =
      streamBytes arrays ++ signature transform arrays := by
    have hdrop : ((completeFile transform arrays).drop 4).drop 4 =
        streamBytes arrays ++ signature transform arrays := by
      rw [hafter]
      exact List.drop_left' (length_leBytes 4 _)
    rwa [List.drop_drop] at hdrop
  have hsize : (streamBytes arrays ++ signature transform arrays).length - 16 =
      (streamBytes arrays).length := by
    rw [List.length_append, length_signature, Nat.add_sub_cancel]
  have hlength : ¬ (streamBytes arrays ++ signature transform arrays).length < 16 := by
    rw [List.length_append, length_signature]
    omega
  have hsignature : ((streamBytes arrays ++ signature transform arrays).drop
      (streamBytes arrays).length).take 16 = signature transform arrays := by
    rw [List.drop_left]
    exact List.take_of_length_le (length_signature arrays).le
  unfold readCopy
  dsimp only
  rw [hmagic, hword, hrest, if_neg (by decide), if_neg (by simp), if_neg (by simp [wordBytes]),
    DataStream.leNat_wordBytes, if_neg (by decide), if_neg hlength, hsize, List.take_left,
    hsignature, if_neg (fun hne => hne (signature_eq hfits).symm)]

/-! ### The stream -/

theorem readData_arrayBytes (data : QByteArray) (rest : List UInt8)
    (hsize : data.bytes.length < 2 ^ 31) :
    readData ⟨arrayBytes data ++ rest, true⟩ = (data, ⟨rest, true⟩) := by
  cases data with
  | none =>
    rw [arrayBytes, QByteArray.bytes, Option.getD_none, List.append_nil, lengthBytes, readData,
      DataStream.readInt32_write]
    rfl
  | some bytes =>
    have hbytes : bytes.length < 2 ^ 31 := hsize
    have htoNat : (Int32.ofNat bytes.length).toUInt32.toNat = bytes.length := by
      rw [Int32.toUInt32_ofNat', UInt32.toNat_ofNat', Nat.mod_eq_of_lt (by omega)]
    have hne : Int32.ofNat bytes.length ≠ -1 := by
      intro heq
      rw [heq] at htoNat
      have hminus : (-1 : Int32).toUInt32.toNat = 4294967295 := by decide
      omega
    have happend : arrayBytes (some bytes) ++ rest =
        DataStream.writeInt32 (Int32.ofNat bytes.length) ++ (bytes ++ rest) := by
      rw [arrayBytes, List.append_assoc]
      rfl
    rw [happend, readData, DataStream.readInt32_write]
    dsimp only
    rw [if_neg hne, htoNat, if_pos (by simp), List.take_left, List.drop_left]

/-- The arrays come out of the stream as they went in, and nothing is left. -/
theorem readArrays_streamBytes {arrays : List QByteArray} (hfits : Fits arrays) :
    readArrays arrays.length ⟨streamBytes arrays, true⟩ = (arrays, ⟨[], true⟩) := by
  unfold Fits at hfits
  induction arrays with
  | nil => rfl
  | cons data arrays ih =>
    have hcons : streamBytes (data :: arrays) = arrayBytes data ++ streamBytes arrays := by
      rw [streamBytes, List.flatMap_cons]
      rfl
    rw [hcons, List.length_append, length_arrayBytes] at hfits
    rw [List.length_cons, readArrays, hcons, readData_arrayBytes _ _ (by omega)]
    dsimp only
    rw [ih (by omega)]

/-! ### The order of the names -/

theorem readFile_single {disk : Disk} {slot : Slot} {copy : Copy} (hcopy : disk slot = some copy)
    (honly : ∀ other, other ≠ slot → disk other = none) :
    readFile transform true disk = (readCopy transform copy.bytes, disk) := by
  have hread : readSlot transform disk slot = readCopy transform copy.bytes := by
    rw [readSlot, hcopy, Option.bind_some]
  have horder : readOrder true disk = (slot, none) := by
    cases slot with
    | zero =>
      have hone := honly .one (by decide)
      simp only [readOrder, hcopy, hone, if_true]
    | one =>
      have hzero := honly .zero (by decide)
      simp only [readOrder, hzero, if_true]
  rw [readFile, horder]
  dsimp only
  rw [hread]
  cases readCopy transform copy.bytes with
  | none => rfl
  | some read => rfl

/-- The writer deletes the file it does not write, unless there is none at all. -/
theorem writeOrder_cases (disk : Disk) :
    (∃ slot, writeOrder true disk = (slot, some slot.other)) ∨
      ((∀ slot, disk slot = none) ∧ writeOrder true disk = (.zero, none)) := by
  cases hzero : disk .zero with
  | none =>
    cases hone : disk .one with
    | none =>
      right
      refine ⟨fun slot => ?_, by simp only [writeOrder, hzero, hone, if_true]⟩
      cases slot with
      | zero => exact hzero
      | one => exact hone
    | some c1 => exact .inl ⟨.zero, by simp only [writeOrder, hzero, hone, if_true, Slot.other]⟩
  | some c0 =>
    cases hone : disk .one with
    | none => exact .inl ⟨.one, by simp only [writeOrder, hzero, hone, if_true, Slot.other]⟩
    | some c1 =>
      by_cases hnewer : c1.modified < c0.modified
      · exact .inl ⟨.one, by simp only [writeOrder, hzero, hone, hnewer, if_true, Slot.other]⟩
      · exact .inl ⟨.zero, by
          simp only [writeOrder, hzero, hone, hnewer, if_true, if_false, Slot.other]⟩

/-- After `finish` the file just written is the only one. -/
theorem finish_single (transform : Compression) (device : Device) (disk : Disk)
    (arrays : List QByteArray) (now : ℕ) :
    (ofArrays transform device true true disk arrays).finish disk now (writeOrder true disk).1 =
        some ⟨(ofArrays transform device true true disk arrays).file, now⟩ ∧
      ∀ other, other ≠ (writeOrder true disk).1 →
        (ofArrays transform device true true disk arrays).finish disk now other = none := by
  obtain ⟨hopen, hname, hdelete, -⟩ :=
    ofArrays_spec transform device true disk arrays
  rw [FileWriteDescriptor.finish, if_pos hopen, store, if_pos hopen, hname, hdelete]
  obtain ⟨slot, horder⟩ | ⟨hnone, horder⟩ := writeOrder_cases disk
  · rw [horder]
    dsimp only [Disk.remove]
    refine ⟨(Function.update_of_ne slot.other_ne.symm _ _).trans (Function.update_self _ _ _), ?_⟩
    intro other hne
    rw [slot.eq_other hne]
    exact Function.update_self _ _ _
  · rw [horder]
    dsimp only [Disk.remove]
    refine ⟨Function.update_self _ _ _, fun other hne => ?_⟩
    exact (Function.update_of_ne hne _ _).trans (hnone other)

/-- Without the other name there is one file only. -/
theorem readFile_finish_unsafe (disk : Disk) {arrays : List QByteArray} (hfits : Fits arrays)
    (now : ℕ) :
    (readFile transform false
      ((ofArrays transform (fun _ => none) false true disk arrays).finish disk now)).1 =
        some ⟨appVersion, streamBytes arrays⟩ := by
  obtain ⟨hopen, hname, hdelete, -⟩ :=
    ofArrays_spec transform (fun _ => none) false disk arrays
  have hread : readSlot transform
      ((ofArrays transform (fun _ => none) false true disk arrays).finish disk now) .zero =
        some ⟨appVersion, streamBytes arrays⟩ := by
    rw [FileWriteDescriptor.finish, if_pos hopen, store, if_pos hopen, hname, hdelete,
      (file_eq_completeFile_iff false disk arrays).mpr (takes_none _)]
    exact readCopy_completeFile hfits
  rw [readFile]
  dsimp only [readOrder]
  rw [if_neg (by decide), hread]

/-- What is written and finished on a device that takes everything is read. -/
theorem readFile_finish (transform : Compression) (safe : Bool) (disk : Disk)
    {arrays : List QByteArray} (hfits : Fits arrays) (now : ℕ) :
    (readFile transform safe
      ((ofArrays transform (fun _ => none) safe true disk arrays).finish disk now)).1 =
        some ⟨appVersion, streamBytes arrays⟩ := by
  cases safe with
  | false => exact readFile_finish_unsafe disk hfits now
  | true =>
    obtain ⟨hcopy, honly⟩ :=
      finish_single transform (fun _ => none) disk arrays now
    rw [(file_eq_completeFile_iff true disk arrays).mpr (takes_none _)] at hcopy
    rw [readFile_single hcopy honly, readCopy_completeFile hfits]

end Bettergram.Storage.Local
