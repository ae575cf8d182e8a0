import CfxMinimalExecution.Cfxpack.GracefulItems

/-!
# The records that are read gracefully

## Main definitions

* `OverflowFits`: the end of what overflowed of a record is a word
* `SumsFit`: the times and heights of a record, added to their bases, are words

## Main results

* `graceful_reassembleRecord`, `graceful_decodeBlockRecord`: exactly when a record is read gracefully
* `graceful_decodeBlockRecords`: exactly when all of them are
-/

namespace Cfxpack

variable {T : PrimitiveTypes} {profile : Profile} {data : Bytes}

/-! ## The parts of a record -/

/-- The end of what overflowed of a record is a word. -/
def OverflowFits (data bitmap : Bytes) (i overflowOffset : ℕ) : Prop :=
  ∀ byte, indexAt bitmap (i / 8) = .ok byte → byte &&& (1 : UInt8) <<< UInt8.ofNat (i % 8) ≠ 0 →
    ∀ len offset, (readUleb128 data).run overflowOffset = .ok (len, offset) →
      offset + len.toNat < UInt64.size

theorem graceful_reassembleRecord (hchecked : profile.overflowChecks = true) {bitmap : Bytes}
    {blockBodyOffset txSegmentOffset prefixSize i overflowOffset : ℕ}
    (harea : blockBodyOffset + (i + 1) * prefixSize ≤ data.length) (hbit : i / 8 < bitmap.length)
    (hsegment : txSegmentOffset ≤ data.length) :
    Graceful ((reassembleRecord profile data bitmap blockBodyOffset txSegmentOffset prefixSize i).run
        overflowOffset) ↔ OverflowFits data bitmap i overflowOffset := by
  have hslice : blockBodyOffset + i * prefixSize ≤ blockBodyOffset + (i + 1) * prefixSize := by
    rw [Nat.add_mul]
    omega
  unfold reassembleRecord OverflowFits
  rw [graceful_run_liftM_bind, slice_eq_ok.mpr ⟨⟨hslice, harea⟩, rfl⟩, Except.ok_bind,
    graceful_run_liftM_bind, graceful_step (graceful_indexAt.mpr hbit)]
  refine forall₂_congr fun byte _ => ?_
  split
  case isTrue hset =>
    rw [graceful_run_step (graceful_readUleb128 data overflowOffset)]
    simp only [hset, ne_eq, not_false_eq_true, true_imp_iff]
    refine forall₃_congr fun len offset _ => ?_
    rw [graceful_run_get_bind, graceful_run_liftM_bind, graceful_addUsize_bind hchecked]
    refine and_iff_left (graceful_run_ensure_bind fun hle => ?_)
    rw [graceful_run_liftM_bind]
    refine graceful_bind.mpr ⟨graceful_slice.mpr ⟨Nat.le_add_right _ _, hle.trans hsegment⟩, ?_⟩
    exact fun rest _ => graceful_ok _
  case isFalse hclear => exact iff_of_true (graceful_ok _) fun hset => absurd hset hclear

theorem graceful_decodeRecord (hchecked : profile.overflowChecks = true) {bitmap : Bytes}
    {blockBodyOffset txSegmentOffset prefixSize i overflowOffset : ℕ}
    (harea : blockBodyOffset + (i + 1) * prefixSize ≤ data.length) (hbit : i / 8 < bitmap.length)
    (hsegment : txSegmentOffset ≤ data.length) :
    Graceful ((decodeRecord profile data bitmap blockBodyOffset txSegmentOffset prefixSize i).run
        overflowOffset) ↔ OverflowFits data bitmap i overflowOffset := by
  unfold decodeRecord
  rw [graceful_run_bind, graceful_reassembleRecord hchecked harea hbit hsegment]
  refine and_iff_left fun bytes stop _ => ?_
  rw [graceful_run_liftM_bind]
  exact graceful_bind.mpr ⟨graceful_peekTxOffsetUnits bytes, fun _ _ => graceful_ok _⟩

/-- So is the end of what overflowed of every record that the loop reaches. -/
def OverflowsFit {α : Type} (round : ℕ → Cursor α) (data bitmap : Bytes) (start blockCount : ℕ) :
    Prop :=
  ∀ i < blockCount, ∀ records overflowOffset,
    Rounds round start (List.range i) records overflowOffset → OverflowFits data bitmap i overflowOffset

theorem graceful_records {α : Type} {round : ℕ → Cursor α} {bitmap : Bytes}
    {blockBodyOffset txSegmentOffset prefixSize blockCount start : ℕ}
    (hround : ∀ i overflowOffset, blockBodyOffset + (i + 1) * prefixSize ≤ data.length →
      i / 8 < bitmap.length →
        (Graceful ((round i).run overflowOffset) ↔ OverflowFits data bitmap i overflowOffset))
    (harea : blockBodyOffset + blockCount * prefixSize ≤ txSegmentOffset)
    (hbitmap : bitmap.length = (blockCount + 7) / 8) (hsegment : txSegmentOffset ≤ data.length) :
    Graceful (((List.range blockCount).mapM round).run start) ↔
      OverflowsFit round data bitmap start blockCount := by
  rw [graceful_mapM_range_run]
  refine forall₂_congr fun i hi => forall₃_congr fun records overflowOffset _ => ?_
  refine hround i overflowOffset ?_ (by omega)
  have hle : (i + 1) * prefixSize ≤ blockCount * prefixSize := Nat.mul_le_mul_right _ hi
  omega

/-! ## The records of the decoder -/

/-- The bitmap lies within the packet, and what overflowed fits. -/
def RecordsFit (profile : Profile) (data : Bytes)
    (blockHeaderOffset blockBodyOffset txSegmentOffset prefixSize : ℕ) : Prop :=
  ∀ blockCount, readU32Le data blockHeaderOffset = .ok blockCount →
    blockHeaderOffset + 4 + (blockCount.toNat + 7) / 8 ≤ data.length ∧
    ∀ bitmap, slice data (blockHeaderOffset + 4)
        (blockHeaderOffset + 4 + (blockCount.toNat + 7) / 8) = .ok bitmap →
      blockBodyOffset + blockCount.toNat * prefixSize ≤ txSegmentOffset →
        OverflowsFit
          (decodeRecord profile data bitmap blockBodyOffset txSegmentOffset prefixSize) data bitmap
          (blockBodyOffset + blockCount.toNat * prefixSize) blockCount.toNat

theorem length_of_slice {α : Type} {data x : List α} {i n : ℕ} (h : slice data i (i + n) = .ok x) :
    x.length = n := by
  obtain ⟨⟨-, hle⟩, rfl⟩ := slice_eq_ok.mp h
  rw [List.length_drop, List.length_take, Nat.min_eq_left hle, Nat.add_sub_cancel_left]

theorem graceful_decodeBlockRecords (hchecked : profile.overflowChecks = true)
    {blockHeaderOffset blockBodyOffset txSegmentOffset prefixSize : ℕ}
    (hsize : prefixSize < UInt32.size) (hsegment : txSegmentOffset ≤ data.length) :
    Graceful (decodeBlockRecords profile data blockHeaderOffset blockBodyOffset txSegmentOffset
        prefixSize) ↔
      RecordsFit profile data blockHeaderOffset blockBodyOffset txSegmentOffset prefixSize := by
  unfold decodeBlockRecords RecordsFit
  refine (graceful_step (graceful_readU32Le _ _)).trans <| forall₂_congr fun blockCount _ => ?_
  rw [graceful_bind, graceful_slice, and_iff_right (Nat.le_add_right _ _)]
  refine and_congr_right fun _ => forall₂_congr fun bitmap hbitmap => ?_
  have hproduct : blockCount.toNat * prefixSize < UInt64.size :=
    Nat.mul_lt_mul'' blockCount.toNat_lt hsize
  rw [show checkedMul blockCount.toNat prefixSize = _ from if_pos hproduct]
  show Graceful (ensure (blockBodyOffset + blockCount.toNat * prefixSize ≤ txSegmentOffset) _ >>= _) ↔ _
  rw [graceful_step (graceful_ensure _ _)]
  simp only [ensure_eq_ok, forall_const]
  refine forall_congr' fun harea => ?_
  rw [StateT.run'_eq, graceful_map]
  exact graceful_records (fun i overflowOffset hbody hbit =>
    graceful_decodeRecord hchecked hbody hbit hsegment) harea (length_of_slice hbitmap) hsegment

/-! ## The blocks of the records -/

/-- The time, the height and the view of a record, each added to its base, are words. -/
def SumsFit (minTimestamp minHeight minPosHeight posReferenceEnableHeight : UInt64)
    (addresses : List Address) (difficulties : List U256) (record : Bytes) : Prop :=
  45 ≤ record.length →
  (readUleb128 record).Then 45 fun author offset => author.toNat < addresses.length →
  (readUleb128 record).Then offset fun timestamp offset =>
    minTimestamp.toNat + timestamp.toNat < UInt64.size ∧
  (readUleb128 record).Then offset fun difficulty offset =>
    difficulty.toNat < difficulties.length →
  (Cursor.times (readQc5e record) 3).Then offset fun _ offset =>
  (readUleb128 record).Then offset fun height offset =>
    minHeight.toNat + height.toNat < UInt64.size ∧
  (Cursor.times (readUleb128 record) 3).Then offset fun _ offset =>
  (readQc8 record).Then offset fun _ offset =>
    posReferenceEnableHeight ≤ minHeight + height →
  (readUleb128 record).Then offset fun posView _ =>
    minPosHeight.toNat + posView.toNat < UInt64.size

theorem forall_tableGet {α : Type} {table : List α} {index : ℕ} {P : Prop} :
    (∀ a, tableGet table index = .ok a → P) ↔ (index < table.length → P) := by
  simp only [tableGet, okOr_eq_ok]
  constructor
  · intro h hlt
    exact h table[index] (List.getElem?_eq_getElem hlt)
  · intro h a ha
    exact h (List.getElem?_eq_some_iff.mp ha).1

theorem graceful_decodeBlockRecord (hchecked : profile.overflowChecks = true) {record : Bytes}
    {index : ℕ} {minTimestamp minHeight minPosHeight posReferenceEnableHeight : UInt64}
    {addresses : List Address} {difficulties : List U256} :
    Graceful (decodeBlockRecord (T := T) profile record index minTimestamp minHeight minPosHeight
        posReferenceEnableHeight addresses difficulties) ↔
      SumsFit minTimestamp minHeight minPosHeight posReferenceEnableHeight addresses difficulties
        record := by
  have huleb := graceful_readUleb128 record
  have hqc5e := graceful_readQc5e record
  unfold decodeBlockRecord SumsFit
  -- a record that is too short is refused with a message
  rw [graceful_step (graceful_ensure _ _)]
  simp only [ensure_eq_ok, forall_const]
  refine forall_congr' fun hlen => ?_
  have hslice : ∀ i j, i ≤ j → j ≤ 45 → slice record i j = .ok ((record.take j).drop i) :=
    fun i j hij hj => slice_eq_ok.mpr ⟨⟨hij, by omega⟩, rfl⟩
  have hflags : indexAt record 44 = .ok record[44] :=
    indexAt_eq_ok.mpr (List.getElem?_eq_getElem (by omega))
  rw [hslice 0 32 (by omega) (by omega), Except.ok_bind, hslice 32 36 (by omega) (by omega),
    Except.ok_bind, hslice 36 40 (by omega) (by omega), Except.ok_bind,
    hslice 40 44 (by omega) (by omega), Except.ok_bind, hflags, Except.ok_bind, StateT.run'_eq,
    graceful_map]
  refine (huleb.run_bind_iff).trans <| Cursor.then_congr fun author offset => ?_
  rw [graceful_run_liftM_bind, graceful_step (graceful_tableGet _ _)]
  refine (forall₂_congr fun _ _ => ?_).trans forall_tableGet
  refine (huleb.run_bind_iff).trans <| Cursor.then_congr fun timestamp offset => ?_
  rw [graceful_run_liftM_bind, graceful_addU64_bind hchecked]
  refine and_congr_right fun _ => ?_
  refine (huleb.run_bind_iff).trans <| Cursor.then_congr fun difficulty offset => ?_
  rw [graceful_run_liftM_bind, graceful_step (graceful_tableGet _ _)]
  refine (forall₂_congr fun _ _ => ?_).trans forall_tableGet
  rw [Cursor.then_times_three]
  refine (hqc5e.run_bind_iff).trans <| Cursor.then_congr fun _ offset => ?_
  refine (hqc5e.run_bind_iff).trans <| Cursor.then_congr fun _ offset => ?_
  refine (hqc5e.run_bind_iff).trans <| Cursor.then_congr fun _ offset => ?_
  refine (huleb.run_bind_iff).trans <| Cursor.then_congr fun height offset => ?_
  rw [graceful_run_liftM_bind, graceful_addU64_bind hchecked]
  refine and_congr_right fun _ => ?_
  rw [Cursor.then_times_three]
  refine (huleb.run_bind_iff).trans <| Cursor.then_congr fun _ offset => ?_
  refine (huleb.run_bind_iff).trans <| Cursor.then_congr fun _ offset => ?_
  refine (huleb.run_bind_iff).trans <| Cursor.then_congr fun _ offset => ?_
  refine ((graceful_readQc8 record).run_bind_iff).trans <| Cursor.then_congr fun _ offset => ?_
  -- a view is read from the first height with references on
  by_cases hview : posReferenceEnableHeight ≤ minHeight + height
  · rw [if_pos hview, forall_prop_of_true hview]
    refine (huleb.run_bind_iff).trans <| Cursor.then_congr fun posView offset => ?_
    rw [graceful_run_liftM_bind, graceful_addU64_bind hchecked]
    exact and_iff_left (graceful_ok _)
  · rw [if_neg hview]
    exact iff_of_true (graceful_ok _) fun h => absurd h hview

end Cfxpack
