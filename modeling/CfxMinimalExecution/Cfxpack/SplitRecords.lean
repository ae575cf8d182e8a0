import CfxMinimalExecution.Cfxpack.CodecBounds
import CfxMinimalExecution.Cfxpack.DecodeEncoded
import CfxMinimalExecution.Cfxpack.VerifyEncoded

/-!
# Records in two parts

A record is split at the prefix size: the first part stands in a slot of that size, the rest in the
overflow. The decoder and the verifier put the parts together again.

## Main definitions

* `WellFormedRecord`: a record with a sequence of fields up to the offset of its payload

## Main results

* `peekTxOffsetUnits_append`: the fields of a record do not depend on what comes after them
* `splitRecords_readBack`: both readers return the records, with zeros up to the prefix size
-/

namespace Cfxpack

variable {T : PrimitiveTypes}

/-! ## More data -/

open Leb128 in
theorem extends_readUleb128 : Extends readUleb128 := by
  intro data more offset value stop h
  obtain ⟨bs, rest, hdrop, hspelled, hlen, rfl, hvalue⟩ := readUleb128_eq_ok.mp h
  refine readUleb128_eq_ok.mpr ⟨bs, rest ++ more, ?_, hspelled, hlen, rfl, hvalue⟩
  have hle := add_length_le_of_drop_eq hdrop (List.ne_nil_of_length_pos hspelled.length_pos)
  rw [List.drop_append_of_le_length (by omega), hdrop, List.append_assoc]

theorem extends_ensure_le (n : ℕ) (message : String) :
    Extends fun data : Bytes => (liftM (ensure (n ≤ data.length) message) : Cursor Unit) := by
  apply Extends.lift
  intro data more _ h
  refine ensure_of ?_
  rw [List.length_append]
  exact (ensure_eq_ok.mp h).trans (Nat.le_add_right _ _)

theorem extends_indexAt (i : ℕ) :
    Extends fun data : Bytes => (liftM (indexAt data i) : Cursor UInt8) := by
  apply Extends.lift
  intro data more byte h
  rw [indexAt_eq_ok] at h ⊢
  rw [List.getElem?_append_left (List.getElem?_eq_some_iff.mp h).1, h]

theorem extends_slice (i j : ℕ) :
    Extends fun data : Bytes => (liftM (slice data i j) : Cursor Bytes) := by
  apply Extends.lift
  intro data more x h
  obtain ⟨⟨hij, hj⟩, rfl⟩ := slice_eq_ok.mp h
  refine slice_eq_ok.mpr ⟨⟨hij, by rw [List.length_append]; omega⟩, ?_⟩
  rw [List.take_append_of_le_length hj]

theorem extends_readQc5e : Extends readQc5e := by
  -- the reads of the first byte, then of the bytes that it announces
  apply Extends.bind (Extends.const get)
  intro offset
  apply Extends.bind (extends_ensure_le (offset + 1) _)
  intro _
  apply Extends.bind (extends_indexAt offset)
  intro first
  by_cases hmode : first >>> 6 = 0
  · simp only [hmode, if_true]
    exact Extends.const _
  · simp only [hmode, if_false]
    apply Extends.bind (extends_ensure_le _ _)
    intro _
    apply Extends.bind (extends_slice offset _)
    intro bytes
    exact Extends.const _

/-- The reader of the fields up to the offset of the payload. -/
theorem peekTxOffsetUnits_append {record : Bytes} {units : UInt64}
    (h : peekTxOffsetUnits record = .ok units) (more : Bytes) :
    peekTxOffsetUnits (record ++ more) = .ok units := by
  have hextends : Extends fun record : Bytes => (do
      Cursor.times (readUleb128 record) 3
      Cursor.times (readQc5e record) 3
      Cursor.times (readUleb128 record) 3
      readUleb128 record : Cursor UInt64) := by
    apply Extends.bind (extends_readUleb128.times 3)
    intro _
    apply Extends.bind (extends_readQc5e.times 3)
    intro _
    apply Extends.bind (extends_readUleb128.times 3)
    intro _
    exact extends_readUleb128
  unfold peekTxOffsetUnits at h ⊢
  rw [StateT.run'_eq, Except.map_eq_ok] at h ⊢
  obtain ⟨⟨value, stop⟩, hrun, rfl⟩ := h
  exact ⟨(value, stop), hextends record more 45 value stop hrun, rfl⟩

/-! ## The two readers -/

/-- A record with a sequence of fields up to the offset of its payload. -/
structure WellFormedRecord (record : Bytes) : Prop where
  length_le : 45 ≤ record.length
  fields : ∃ units, peekTxOffsetUnits record = .ok units

/-- **The split of the records is lossless.** The decoder and the verifier find every record, followed
by the zeros that fill its slot. -/
theorem splitRecords_readBack (profile : Profile) {input : Packet T} {records : List Bytes}
    {txSegment b : Bytes} {n : ℕ} (hn : n ∈ [64, 72, 80, 88, 96])
    (hrecords : ∀ record ∈ records, WellFormedRecord record)
    (h : assemblePacket input n records.length (packBlockBody records n).2
      (packBlockBody records n).1 txSegment = .ok b) :
    ∃ offsets bitmap decoded, readOffsets b = .ok offsets ∧
      indexAt b 92 = .ok (UInt8.ofNat n) ∧
      readU32Le b (offsets.getD 5 0) = .ok (UInt32.ofNat records.length) ∧
      (UInt32.ofNat records.length).toNat = records.length ∧
      slice b (offsets.getD 5 0 + 4) (offsets.getD 5 0 + 4 + (records.length + 7) / 8) = .ok bitmap ∧
      decodeBlockRecords profile b (offsets.getD 5 0) (offsets.getD 6 0) (offsets.getD 7 0) n =
        .ok decoded ∧
      collectBlockRecords profile b (offsets.getD 6 0) (offsets.getD 7 0) records.length n bitmap =
        .ok (decoded.map (·.bytes)) ∧
      decoded.map (·.bytes) =
        records.map fun record => record ++ List.replicate (n - record.length) 0 := by
  have harea := blockArea_of_assemblePacket hn h
  -- the zeros after a record do not change where its payload is
  have hunits : ∀ record ∈ records.map (paddedRecord n),
      ∃ units, peekTxOffsetUnits record = .ok units := by
    rw [List.forall_mem_map]
    intro record hrecord
    obtain ⟨units, hfields⟩ := (hrecords record hrecord).fields
    rw [paddedRecord_eq_append]
    exact ⟨units, peekTxOffsetUnits_append hfields _⟩
  obtain ⟨decoded, hbytes, -, hdecoded⟩ := harea.exists_decodedRecords hunits profile
  have hcollected := harea.collectBlockRecords_eq profile
  rw [← hbytes] at hcollected
  refine ⟨_, _, decoded, harea.readOffsets, harea.prefixSize, harea.blockCount,
    harea.toNat_blockCount, harea.bitmap, hdecoded, hcollected, ?_⟩
  rw [hbytes]
  exact List.map_congr_left fun record _ => paddedRecord_eq_append n record

/-- A record that fits its slot, and one that does not. -/
def twoRecords : List Bytes := [List.replicate 55 0, List.replicate 70 1]

theorem splitRecords_readBack_twoRecords :
    ∃ (b : Bytes) (offsets : List ℕ) (decoded : List DecodedRecord),
    assemblePacket plainPacket 64 twoRecords.length (packBlockBody twoRecords 64).2
      (packBlockBody twoRecords 64).1 [] = .ok b ∧
    decodeBlockRecords ⟨true⟩ b (offsets.getD 5 0) (offsets.getD 6 0) (offsets.getD 7 0) 64 =
      .ok decoded ∧
    decoded.map (·.bytes) =
      twoRecords.map fun record => record ++ List.replicate (64 - record.length) 0 := by
  have hwellFormed : ∀ record ∈ twoRecords, WellFormedRecord record := by
    intro record hrecord
    rcases List.mem_pair.mp hrecord with rfl | rfl
    · exact ⟨by decide, 0, by decide +kernel⟩
    · exact ⟨by decide, 1, by decide +kernel⟩
  have hrun : (assemblePacket plainPacket 64 twoRecords.length (packBlockBody twoRecords 64).2
      (packBlockBody twoRecords 64).1 []).map (·.length) = .ok 384 := by
    decide +kernel
  obtain ⟨b, hassembled, -⟩ := Except.map_eq_ok.mp hrun
  obtain ⟨offsets, _, decoded, -, -, -, -, -, hdecoded, -, hbytes⟩ :=
    splitRecords_readBack ⟨true⟩ (by decide) hwellFormed hassembled
  exact ⟨b, offsets, decoded, hassembled, hdecoded, hbytes⟩

end Cfxpack
