import CfxMinimalExecution.Cfxpack.Layout

/-!
# The prefix area and the overflow of the records

## Main definitions

* `prefixPart`, `overflowPart`: what of a record stands in the prefix area and in the overflow
* `paddedRecord`, `zeroFill`: the record that is read back, with the zeros that fill its prefix
* `bitAt`: a bit of the extension bitmap

## Main results

* `packBlockBody_fst`, `bitAt_packBlockBody`: what the encoder packs
* `rounds_reassembleRecord`: the records are reassembled
-/

namespace Cfxpack

/-- The part of a record in the prefix area. -/
def prefixPart (n : ℕ) (record : Bytes) : Bytes :=
  record.take n ++ List.replicate (n - record.length) 0

/-- The part of a record in the overflow, after its length. -/
def overflowPart (n : ℕ) (record : Bytes) : Bytes :=
  if n < record.length then uleb128 (UInt64.ofNat (record.drop n).length) ++ record.drop n else []

/-- The record that is read back. -/
def paddedRecord (n : ℕ) (record : Bytes) : Bytes := prefixPart n record ++ record.drop n

@[simp] theorem length_prefixPart (n : ℕ) (record : Bytes) : (prefixPart n record).length = n := by
  simp only [prefixPart, List.length_append, List.length_take, List.length_replicate]
  omega

/-- The zeros that fill the prefix of a record. -/
def zeroFill (n : ℕ) (record : Bytes) : Bytes := List.replicate (n - record.length) 0

theorem paddedRecord_eq_append (n : ℕ) (record : Bytes) :
    paddedRecord n record = record ++ zeroFill n record := by
  unfold paddedRecord prefixPart zeroFill
  rcases Nat.lt_or_ge n record.length with h | h
  · rw [Nat.sub_eq_zero_of_le h.le, List.replicate_zero, List.append_nil, List.append_nil,
      List.take_append_drop]
  · rw [List.take_of_length_le h, List.drop_eq_nil_of_le h, List.append_nil]

theorem paddedRecord_eq (n : ℕ) (record : Bytes) :
    ∃ zeros, paddedRecord n record = record ++ zeros :=
  ⟨_, paddedRecord_eq_append n record⟩

/-! ## The bitmap -/

/-- A bit of the bitmap. -/
def bitAt (bitmap : Bytes) (i : ℕ) : Bool :=
  bitmap.getD (i / 8) 0 &&& (1 : UInt8) <<< UInt8.ofNat (i % 8) ≠ 0

theorem bit_and_bit (i j : Fin 8) :
    (1 : UInt8) <<< UInt8.ofNat i &&& (1 : UInt8) <<< UInt8.ofNat j =
      if i = j then (1 : UInt8) <<< UInt8.ofNat j else 0 := by
  revert i j
  decide +kernel

theorem bit_ne_zero (i : Fin 8) : (1 : UInt8) <<< UInt8.ofNat i ≠ 0 := by
  revert i
  decide +kernel

theorem uint8_or_and (x y z : UInt8) : (x ||| y) &&& z = (x &&& z) ||| (y &&& z) := by
  apply UInt8.toBitVec_inj.mp
  simpa using BitVec.and_or_distrib_right

theorem or_bit_and_bit (x : UInt8) (i j : ℕ) :
    (x ||| (1 : UInt8) <<< UInt8.ofNat (i % 8)) &&& (1 : UInt8) <<< UInt8.ofNat (j % 8) ≠ 0 ↔
      i % 8 = j % 8 ∨ x &&& (1 : UInt8) <<< UInt8.ofNat (j % 8) ≠ 0 := by
  have hi : i % 8 < 8 := Nat.mod_lt _ (by omega)
  have hj : j % 8 < 8 := Nat.mod_lt _ (by omega)
  have hbits := bit_and_bit ⟨i % 8, hi⟩ ⟨j % 8, hj⟩
  have hne := bit_ne_zero ⟨j % 8, hj⟩
  simp only [Fin.mk.injEq] at hbits hne
  rw [uint8_or_and, hbits]
  split
  case isTrue h => simp [h, hne]
  case isFalse h => simp [h]

/-- Setting a bit. -/
theorem bitAt_modify {bitmap : Bytes} {i : ℕ} (hi : i / 8 < bitmap.length) (j : ℕ) :
    bitAt (bitmap.modify (i / 8) (· ||| (1 : UInt8) <<< UInt8.ofNat (i % 8))) j =
      (decide (i = j) || bitAt bitmap j) := by
  rw [Bool.eq_iff_iff]
  simp only [bitAt, decide_eq_true_eq, Bool.or_eq_true, List.getD_eq_getElem?_getD,
    List.getElem?_modify]
  split
  case isTrue h =>
    rw [← h, List.getElem?_eq_getElem hi]
    have hij : i % 8 = j % 8 ↔ i = j := by omega
    rw [← hij]
    exact or_bit_and_bit _ i j
  case isFalse h =>
    have hij : i ≠ j := fun hij => h (by rw [hij])
    simp [hij]

theorem bitAt_replicate (k j : ℕ) : bitAt (List.replicate k 0) j = false := by
  simp only [bitAt, List.getD_eq_getElem?_getD, List.getElem?_replicate]
  split <;> simp

/-! ## What the encoder packs -/

theorem foldl_packRecord (n : ℕ) (records : List Bytes) (k : ℕ) (body : BlockBody)
    (hlen : k + records.length ≤ 8 * body.extensionBitmap.length) :
    let packed := (records.zipIdx k).foldl (packRecord n) body
    packed.blockBody = body.blockBody ++ records.flatMap (prefixPart n) ∧
      packed.overflow = body.overflow ++ records.flatMap (overflowPart n) ∧
      packed.extensionBitmap.length = body.extensionBitmap.length ∧
      ∀ j, bitAt packed.extensionBitmap j = (bitAt body.extensionBitmap j ||
        decide (k ≤ j ∧ n < (records.getD (j - k) []).length)) := by
  -- induction on the records, of which `k` are packed before
  induction records generalizing k body with
  | nil => simp
  | cons record records ih =>
    rw [List.zipIdx_cons, List.foldl_cons]
    -- a short record is filled with zeros, a long one is cut
    have hpre : record.take (min record.length n) ++
        List.replicate (n - min record.length n) 0 = prefixPart n record := by
      unfold prefixPart
      rcases Nat.le_total n record.length with h | h
      · simp [h]
      · simp [h, List.take_of_length_le h]
    have hbits : (packRecord n body (record, k)).extensionBitmap.length =
        body.extensionBitmap.length := by
      simp only [packRecord]
      split <;> simp
    obtain ⟨hbody, hover, hbitmap, hbit⟩ := ih (k + 1) (packRecord n body (record, k))
      (by rw [hbits, List.length_cons] at *; omega)
    refine ⟨?_, ?_, hbitmap.trans hbits, fun j => ?_⟩
    · rw [hbody, List.flatMap_cons, ← List.append_assoc]
      simp only [packRecord, ← hpre, List.append_assoc]
    · rw [hover, List.flatMap_cons, ← List.append_assoc]
      simp only [packRecord, overflowPart, putUleb128]
      split <;> simp
    -- the bit of the record `k` is set when it overflows
    · have hk : k / 8 < body.extensionBitmap.length := by
        rw [List.length_cons] at hlen
        omega
      have hhead : bitAt (packRecord n body (record, k)).extensionBitmap j =
          (decide (j = k ∧ n < record.length) || bitAt body.extensionBitmap j) := by
        simp only [packRecord]
        split
        case isTrue h => simp [bitAt_modify hk, h, eq_comm]
        case isFalse h => simp [h]
      rw [hbit j, hhead]
      -- and no later record changes it
      rcases Nat.lt_trichotomy j k with h | rfl | h
      · simp [h.ne, Nat.not_le.mpr h, Nat.not_le.mpr (h.trans (Nat.lt_succ_self k))]
      · simp [Bool.or_comm]
      · obtain ⟨d, rfl⟩ := Nat.exists_eq_add_of_lt h
        simp [show k + d + 1 ≠ k by omega, show k + d + 1 - (k + 1) = d by omega,
          show k + d + 1 - k = d + 1 by omega, show k ≤ k + d + 1 by omega]

theorem packBlockBody_fst (records : List Bytes) (n : ℕ) :
    (packBlockBody records n).1 =
      records.flatMap (prefixPart n) ++ records.flatMap (overflowPart n) := by
  obtain ⟨hbody, hover, -, -⟩ := foldl_packRecord n records 0
    ⟨List.replicate ((records.length + 7) / 8) 0, [], []⟩ (by simp; omega)
  simp only [packBlockBody, hbody, hover, List.nil_append]

@[simp] theorem length_packBlockBody_snd (records : List Bytes) (n : ℕ) :
    (packBlockBody records n).2.length = (records.length + 7) / 8 := by
  obtain ⟨-, -, hlen, -⟩ := foldl_packRecord n records 0
    ⟨List.replicate ((records.length + 7) / 8) 0, [], []⟩ (by simp; omega)
  simpa [packBlockBody] using hlen

/-- The bitmap marks the records that overflow. -/
theorem bitAt_packBlockBody (records : List Bytes) (n j : ℕ) :
    bitAt (packBlockBody records n).2 j = decide (n < (records.getD j []).length) := by
  obtain ⟨-, -, -, hbit⟩ := foldl_packRecord n records 0
    ⟨List.replicate ((records.length + 7) / 8) 0, [], []⟩ (by simp; omega)
  simpa [packBlockBody, bitAt_replicate] using hbit j

/-- A record is packed as what is read of it. -/
theorem packRecord_congr {n : ℕ} {record record' : Bytes}
    (h : paddedRecord n record = paddedRecord n record') (body : BlockBody) (i : ℕ) :
    packRecord n body (record, i) = packRecord n body (record', i) := by
  have hlen := congrArg List.length h
  have heq := h
  rw [paddedRecord_eq_append, paddedRecord_eq_append] at heq
  simp only [paddedRecord, List.length_append, length_prefixPart, List.length_drop] at hlen
  rcases Nat.lt_or_ge n record.length with hover | hle
  · -- nothing fills the prefix of a record that overflows
    have hover' : n < record'.length := by omega
    rw [zeroFill, zeroFill, Nat.sub_eq_zero_of_le (Nat.le_of_lt hover),
      Nat.sub_eq_zero_of_le (Nat.le_of_lt hover'), List.replicate_zero, List.append_nil,
      List.append_nil] at heq
    rw [heq]
  · have hle' : record'.length ≤ n := by omega
    have hfill : ∀ r : Bytes, r.length ≤ n → body.blockBody ++ r.take (min r.length n) ++
        List.replicate (n - min r.length n) 0 = body.blockBody ++ (r ++ zeroFill n r) := by
      intro r hr
      rw [Nat.min_eq_left hr, List.take_length, List.append_assoc, zeroFill]
    simp only [packRecord, hfill record hle, hfill record' hle', heq, if_neg (Nat.not_lt.mpr hle),
      if_neg (Nat.not_lt.mpr hle')]

/-- Records are packed as what is read of them. -/
theorem packBlockBody_congr {n : ℕ} {records records' : List Bytes}
    (h : records.map (paddedRecord n) = records'.map (paddedRecord n)) :
    packBlockBody records n = packBlockBody records' n := by
  have hfold : ∀ (records records' : List Bytes) (k : ℕ) (body : BlockBody),
      records.map (paddedRecord n) = records'.map (paddedRecord n) →
        (records.zipIdx k).foldl (packRecord n) body =
          (records'.zipIdx k).foldl (packRecord n) body := by
    intro records
    induction records with
    | nil =>
      intro records' k body heq
      rw [List.map_nil, eq_comm, List.map_eq_nil_iff] at heq
      rw [heq]
    | cons record records ih =>
      rintro (_ | ⟨record', records'⟩) k body heq
      · cases heq
      · obtain ⟨hfirst, hrest⟩ := List.cons.inj heq
        rw [List.zipIdx_cons, List.zipIdx_cons, List.foldl_cons, List.foldl_cons,
          packRecord_congr hfirst]
        exact ih records' _ _ hrest
  have hlen : records.length = records'.length := by simpa using congrArg List.length h
  unfold packBlockBody
  rw [hfold records records' 0 _ h, hlen]

/-! ## Reading the records back -/

section Reassembly

theorem length_take_succ_overflow {records : List Bytes} {n i : ℕ} (hi : i < records.length) :
    ((records.take (i + 1)).flatMap (overflowPart n)).length =
      ((records.take i).flatMap (overflowPart n)).length + (overflowPart n records[i]).length := by
  rw [← List.take_append_getElem hi, List.flatMap_append, List.length_append,
    List.flatMap_singleton]

variable {profile : Profile} {data bitmap rest : Bytes} {records : List Bytes}
  {bodyOffset txSegmentOffset n : ℕ}

/-- The records stand in their prefix area and overflow, and the bitmap marks those that do. -/
structure Packed (data bitmap : Bytes) (records : List Bytes)
    (bodyOffset txSegmentOffset n : ℕ) : Prop where
  pos : 0 < n
  body : ∃ rest, data.drop bodyOffset =
    records.flatMap (prefixPart n) ++ records.flatMap (overflowPart n) ++ rest
  le_txSegmentOffset : bodyOffset + (records.flatMap (prefixPart n) ++
    records.flatMap (overflowPart n)).length ≤ txSegmentOffset
  txSegmentOffset_lt : txSegmentOffset < UInt64.size
  length_bitmap : bitmap.length = (records.length + 7) / 8
  bit : ∀ j, bitAt bitmap j = decide (n < (records.getD j []).length)

namespace Packed

variable (h : Packed data bitmap records bodyOffset txSegmentOffset n)

include h

theorem slice_prefixPart {i : ℕ} (hi : i < records.length) :
    slice data (bodyOffset + i * n) (bodyOffset + (i + 1) * n) =
      .ok (prefixPart n records[i]) := by
  obtain ⟨rest, hbody⟩ := h.body
  have hle : i * n ≤ (records.flatMap (prefixPart n)).length := by
    rw [length_flatMap_of_length (length_prefixPart n)]
    exact Nat.mul_le_mul_right n hi.le
  have hdrop : data.drop (bodyOffset + i * n) = prefixPart n records[i] ++
      ((records.drop (i + 1)).flatMap (prefixPart n) ++
        (records.flatMap (overflowPart n) ++ rest)) := by
    rw [← List.drop_drop, hbody, List.append_assoc, List.drop_append_of_le_length hle,
      drop_flatMap_of_length (length_prefixPart n), List.drop_eq_getElem_cons hi,
      List.flatMap_cons, List.append_assoc]
  rw [Nat.succ_mul, ← Nat.add_assoc]
  exact slice_of_drop_eq hdrop (length_prefixPart n _) h.pos

/-- The position in the overflow before a record. -/
theorem drop_overflow {i : ℕ} (hi : i < records.length) :
    ∃ rest, data.drop (bodyOffset + records.length * n +
        ((records.take i).flatMap (overflowPart n)).length) =
      overflowPart n records[i] ++ rest := by
  obtain ⟨rest, hbody⟩ := h.body
  refine ⟨(records.drop (i + 1)).flatMap (overflowPart n) ++ rest, ?_⟩
  have hsplit : records.flatMap (overflowPart n) = (records.take i).flatMap (overflowPart n) ++
      (overflowPart n records[i] ++ (records.drop (i + 1)).flatMap (overflowPart n)) := by
    rw [← List.flatMap_cons, ← List.drop_eq_getElem_cons hi, ← List.flatMap_append,
      List.take_append_drop]
  rw [← length_flatMap_of_length (length_prefixPart n) records, Nat.add_assoc, ← List.drop_drop,
    hbody, ← List.drop_drop, List.append_assoc, List.drop_left, hsplit, List.append_assoc,
    List.drop_left, List.append_assoc]

theorem overflow_le (i : ℕ) :
    bodyOffset + records.length * n + ((records.take i).flatMap (overflowPart n)).length ≤
      txSegmentOffset := by
  have hle := h.le_txSegmentOffset
  have hsplit : (records.flatMap (overflowPart n)).length =
      ((records.take i).flatMap (overflowPart n)).length +
        ((records.drop i).flatMap (overflowPart n)).length := by
    rw [← List.length_append, ← List.flatMap_append, List.take_append_drop]
  rw [List.length_append, length_flatMap_of_length (length_prefixPart n)] at hle
  omega

/-- The byte of the bitmap for a record. -/
theorem exists_byte {i : ℕ} (hi : i < records.length) :
    ∃ byte, indexAt bitmap (i / 8) = .ok byte ∧
      (byte &&& (1 : UInt8) <<< UInt8.ofNat (i % 8) ≠ 0 ↔ n < records[i].length) := by
  have hbyte : i / 8 < bitmap.length := by
    rw [h.length_bitmap]
    omega
  have hbit := h.bit i
  rw [bitAt, List.getD_eq_getElem?_getD, List.getD_eq_getElem?_getD,
    List.getElem?_eq_getElem hbyte, List.getElem?_eq_getElem hi, Option.getD_some,
    Option.getD_some, decide_eq_decide] at hbit
  exact ⟨bitmap[i / 8], indexAt_eq_ok.mpr (List.getElem?_eq_getElem hbyte), hbit⟩

/-- One record is reassembled. -/
theorem run_reassembleRecord {i : ℕ} (hi : i < records.length) :
    (reassembleRecord profile data bitmap bodyOffset txSegmentOffset n i).run
        (bodyOffset + records.length * n + ((records.take i).flatMap (overflowPart n)).length) =
      .ok (paddedRecord n records[i],
        bodyOffset + records.length * n +
          ((records.take (i + 1)).flatMap (overflowPart n)).length) := by
  -- the bit of the record says whether it overflows, and the overflow stands after the earlier ones
  obtain ⟨byte, hbyte, hbit⟩ := h.exists_byte hi
  obtain ⟨rest, hdrop⟩ := h.drop_overflow hi
  have hle := h.overflow_le (i + 1)
  have hsucc := length_take_succ_overflow (n := n) hi
  rw [hsucc, ← Nat.add_assoc] at hle ⊢
  have hword := h.txSegmentOffset_lt
  have hslice := h.slice_prefixPart hi
  generalize bodyOffset + records.length * n = base at *
  generalize ((records.take i).flatMap (overflowPart n)).length = taken at *
  -- a long record: its overflow is read back, and ends before the transactions
  by_cases hover : n < records[i].length
  · rw [overflowPart, if_pos hover] at hdrop hle ⊢
    generalize hrest : records[i].drop n = overflow at *
    rw [List.append_assoc] at hdrop
    rw [List.length_append] at hle ⊢
    have hlen : (UInt64.ofNat overflow.length).toNat = overflow.length :=
      UInt64.toNat_ofNat_of_lt' (by omega)
    have hread := reads_uleb128 data _ _ _ hdrop
    have hdrop' := drop_add_of_drop_eq hdrop
    generalize base + taken = position at *
    generalize (uleb128 (UInt64.ofNat overflow.length)).length = width at *
    have hadd : profile.addUsize (position + width) overflow.length =
        .ok (position + width + overflow.length) := Profile.addUsize_of_lt (by omega)
    have hover' := slice_of_drop_eq hdrop' rfl (by rw [← hrest, List.length_drop]; omega)
    have hend : position + width + overflow.length ≤ txSegmentOffset := by omega
    rw [← Nat.add_assoc]
    simp [reassembleRecord, hslice, hbyte, hbit.mpr hover, hread, hlen, hadd, ensure_of hend, hover',
      paddedRecord, hrest]
  -- a short record is its prefix alone
  · rw [overflowPart, if_neg hover] at hdrop hle ⊢
    simp [reassembleRecord, hslice, hbyte, not_not.mp (mt hbit.mp hover), paddedRecord,
      Nat.not_lt.mp hover]

/-- **The records are reassembled**, each with the zeros that fill its prefix. -/
theorem rounds_reassembleRecord (profile : Profile) :
    Rounds (reassembleRecord profile data bitmap bodyOffset txSegmentOffset n)
      (bodyOffset + records.length * n) (List.range records.length)
      (records.map (paddedRecord n))
      (bodyOffset + records.length * n + (records.flatMap (overflowPart n)).length) := by
  let st : ℕ → ℕ := fun i =>
    bodyOffset + records.length * n + ((records.take i).flatMap (overflowPart n)).length
  have hrounds : Rounds (reassembleRecord profile data bitmap bodyOffset txSegmentOffset n) (st 0)
      (List.range records.length) (records.map (paddedRecord n))
      (st (List.range records.length).length) := by
    refine Rounds.of_getElem (by simp) fun i a b ha hb => ?_
    obtain ⟨hi, rfl⟩ : i < records.length ∧ i = a := by
      obtain ⟨hi, hget⟩ := List.getElem?_eq_some_iff.mp ha
      exact ⟨by simpa using hi, by simpa using hget⟩
    obtain rfl : paddedRecord n records[i] = b := by simpa [hi] using hb
    exact h.run_reassembleRecord hi
  have hlast : st (List.range records.length).length = bodyOffset + records.length * n +
      (records.flatMap (overflowPart n)).length := by
    simp only [st, List.length_range, List.take_length]
  rw [hlast] at hrounds
  simpa [st] using hrounds

end Packed

end Reassembly

end Cfxpack
