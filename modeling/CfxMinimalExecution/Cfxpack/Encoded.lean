import CfxMinimalExecution.Cfxpack.Records

/-!
# What the encoder writes, section by section

## Main definitions

* `BlockArea data n records txSegment`: where the block count, the bitmap, the records and the
  transactions stand in a packet

## Main results

* `encodePacket_eq_ok`: a run of the encoder
* `IsPacket.blockArea`, `blockArea_of_assemblePacket`: the block area of what the encoder assembles
-/

namespace Cfxpack

variable {T : PrimitiveTypes} {crates : Crates T}

/-- The tables of a packet, by value. -/
def senderNonceIndex (input : Packet T) : Assoc ℕ UInt64 :=
  Assoc.collect (input.senderBaseNonces.map fun x => (x.senderIndex.toNat, x.baseNonce))

theorem encodePacket_eq_ok {input : Packet T} {b : Bytes} :
    encodePacket crates input = .ok b ↔ validateInput crates input = .ok () ∧
      ∃ records txSegment,
        encodeBlocks crates input (Assoc.indexOf input.addresses) (Assoc.indexOf input.gasPrices)
          (senderNonceIndex input) (Assoc.indexOf input.difficulties) = .ok (records, txSegment) ∧
        assemblePacket input (choosePrefixSize records) records.length
          (packBlockBody records (choosePrefixSize records)).2
          (packBlockBody records (choosePrefixSize records)).1 txSegment = .ok b := by
  unfold encodePacket senderNonceIndex
  simp only [Except.bind_eq_ok, Prod.exists]
  constructor
  · rintro ⟨⟨⟩, hvalid, records, txSegment, hblocks, hassemble⟩
    exact ⟨hvalid, records, txSegment, hblocks, hassemble⟩
  · rintro ⟨hvalid, records, txSegment, hblocks, hassemble⟩
    exact ⟨(), hvalid, records, txSegment, hblocks, hassemble⟩

/-! ## The prefix size -/

/-- The sizes in use. -/
def prefixSizes : List ℕ := [64, 72, 80, 88, 96]

theorem choosePrefixSizeFrom_mem (records : List Bytes) (rounds k : ℕ) (h : k + rounds ≤ 4) :
    choosePrefixSizeFrom records rounds (64 + 8 * k) ∈ prefixSizes := by
  induction rounds generalizing k with
  | zero =>
    have hk : k = 0 ∨ k = 1 ∨ k = 2 ∨ k = 3 ∨ k = 4 := by omega
    rcases hk with rfl | rfl | rfl | rfl | rfl <;> simp [choosePrefixSizeFrom, prefixSizes]
  | succ rounds ih =>
    have hnext := ih (k + 1) (by omega)
    have hk : k = 0 ∨ k = 1 ∨ k = 2 ∨ k = 3 := by omega
    rw [choosePrefixSizeFrom]
    split
    · exact hnext
    · split
      · exact hnext
      · rcases hk with rfl | rfl | rfl | rfl <;> simp [prefixSizes]

theorem choosePrefixSize_mem (records : List Bytes) :
    choosePrefixSize records ∈ prefixSizes :=
  choosePrefixSizeFrom_mem records 4 0 (by omega)

theorem prefixSize_bounds {n : ℕ} (h : n ∈ prefixSizes) : 64 ≤ n ∧ n ≤ 96 := by
  simp only [prefixSizes, List.mem_cons, List.not_mem_nil, or_false] at h
  omega

/-! ## The block area -/

/-- Where the blocks stand in a packet. -/
structure BlockArea (data : Bytes) (n : ℕ) (records : List Bytes) (txSegment : Bytes)
    (offsets : List ℕ) : Prop where
  headerLen_le : headerLen ≤ data.length
  prefixSize : indexAt data 92 = .ok (UInt8.ofNat n)
  prefixSize_mem : n ∈ prefixSizes
  readOffsets : readOffsets data = .ok offsets
  ensureOffsets : ensureOffsets offsets data.length = .ok ()
  blockHeader_aligned : offsets.getD 5 0 % 32 = 0
  txSegment_aligned : offsets.getD 7 0 % 64 = 0
  length_lt : records.length < UInt32.size
  blockCount : readU32Le data (offsets.getD 5 0) = .ok (UInt32.ofNat records.length)
  bitmap : slice data (offsets.getD 5 0 + 4)
    (offsets.getD 5 0 + 4 + (records.length + 7) / 8) = .ok (packBlockBody records n).2
  bitmap_le : offsets.getD 5 0 + 4 + (records.length + 7) / 8 ≤ offsets.getD 6 0
  packed : Packed data (packBlockBody records n).2 records (offsets.getD 6 0) (offsets.getD 7 0) n
  drop_txSegment : data.drop (offsets.getD 7 0) = txSegment
  txSegmentOffset_lt : offsets.getD 7 0 < UInt32.size

section Offsets

variable (input : Packet T) (blockCount : ℕ) (extensionBitmap blockBody txSegment : Bytes)

theorem blockHeaderOffset_eq : sectionOffset headerLen
    (packetSections input blockCount extensionBitmap blockBody txSegment) 5 =
      gasPriceOffset input + (gasPriceSection input).length := by
  simp [sectionOffset, packetSections, tableSections, gasPriceOffset]
  omega

theorem blockBodyOffset_eq : sectionOffset headerLen
    (packetSections input blockCount extensionBitmap blockBody txSegment) 6 =
      gasPriceOffset input + (gasPriceSection input).length +
        (blockHeaderSection (gasPriceOffset input + (gasPriceSection input).length) blockCount
          extensionBitmap).length := by
  rw [sectionOffset_succ (i := 5) (by simp [packetSections, tableSections]), blockHeaderOffset_eq]
  rfl

theorem txSegmentOffset_eq : sectionOffset headerLen
    (packetSections input blockCount extensionBitmap blockBody txSegment) 7 =
      sectionOffset headerLen
        (packetSections input blockCount extensionBitmap blockBody txSegment) 6 +
      (blockBodySection (sectionOffset headerLen
        (packetSections input blockCount extensionBitmap blockBody txSegment) 6)
          blockBody).length := by
  rw [sectionOffset_succ (i := 6) (by simp [packetSections, tableSections]), blockBodyOffset_eq]
  rfl

end Offsets

/-- **The block area of a packet**, from its last three sections. -/
theorem IsPacket.blockArea {data fixed pad pad' txSegment : Bytes} {sections : List Bytes}
    {records : List Bytes} {n : ℕ} (h : IsPacket data fixed sections) (hn : n ∈ prefixSizes)
    (hfixed : fixed[92]? = some (UInt8.ofNat n))
    (h5 : sections[5]? = some (leBytes 4 (UInt32.ofNat records.length).toNat ++
      (packBlockBody records n).2 ++ pad))
    (h6 : sections[6]? = some ((packBlockBody records n).1 ++ pad'))
    (h7 : sections[7]? = some txSegment)
    (hmod5 : sectionOffset headerLen sections 5 % 32 = 0)
    (hmod7 : sectionOffset headerLen sections 7 % 64 = 0) :
    BlockArea data n records txSegment
      ((List.range headerOffsetCount).map (sectionOffset headerLen sections)) := by
  -- what the data is from the bitmap, the body and the transactions on
  have hdrop5 := h.drop_offset_eq h5
  have hdrop6 := h.drop_offset_eq h6
  have hdrop7 := h.drop_offset_eq h7
  have hoff5 : sectionOffset headerLen sections 6 = _ := sectionOffset_succ_of_getElem? h5
  have hoff6 : sectionOffset headerLen sections 7 = _ := sectionOffset_succ_of_getElem? h6
  have hlt7 := h.offset_lt 7 (by decide)
  have hbody := packBlockBody_fst records n
  have hbitmap := length_packBlockBody_snd records n
  have hbounds := prefixSize_bounds hn
  -- the body is one fixed part for each record, and the overflow of the long ones
  have harea : (packBlockBody records n).1.length =
      records.length * n + (records.flatMap (overflowPart n)).length := by
    rw [hbody, List.length_append, length_flatMap_of_length (length_prefixPart n)]
  have hcount : records.length * 64 ≤ records.length * n := Nat.mul_le_mul_left _ hbounds.1
  have hdata : data[92]? = some (UInt8.ofNat n) := by
    have hlt : 92 < fixed.length := by simp [h.length_fixed, headerFixedLen]
    rw [h.eq, packetHeader, List.append_assoc, List.getElem?_append_left hlt, hfixed]
  rw [List.append_assoc, List.append_assoc] at hdrop5
  simp only [List.length_append, length_leBytes] at hoff5 hoff6
  have hbits : data.drop (sectionOffset headerLen sections 5 + 4) = (packBlockBody records n).2 ++
      (pad ++ data.drop (sectionOffset headerLen sections 6)) := by
    have hdrop := drop_add_of_drop_eq hdrop5
    rwa [length_leBytes] at hdrop
  -- the transactions are the last section
  have hend : data.drop (sectionOffset headerLen sections (7 + 1)) = [] := by
    have hlen : sections.length ≤ 7 + 1 := h.length_sections.le
    rw [h.drop_offset, List.drop_eq_nil_of_le hlen, List.flatten_nil]
  rw [hend, List.append_nil] at hdrop7
  -- the count of the records fits its word
  have hword : (UInt32.ofNat records.length).toNat = records.length :=
    UInt32.toNat_ofNat_of_lt' (by omega)
  have hsize : UInt32.size < UInt64.size := by decide
  have hlength := h.offset_le_length 6
  -- the bitmap, after the word that counts the records
  have hbits' : slice data (sectionOffset headerLen sections 5 + 4)
      (sectionOffset headerLen sections 5 + 4 + (records.length + 7) / 8) =
        .ok (packBlockBody records n).2 := by
    refine slice_eq_ok.mpr ⟨by omega, ?_⟩
    rw [List.drop_take, hbits, Nat.add_sub_cancel_left, ← hbitmap, List.take_left]
  have hg5 := getD_offsets sections (show 5 < headerOffsetCount by decide)
  have hg6 := getD_offsets sections (show 6 < headerOffsetCount by decide)
  have hg7 := getD_offsets sections (show 7 < headerOffsetCount by decide)
  constructor
  · exact h.headerLen_le
  · exact indexAt_eq_ok.mpr hdata
  · exact hn
  · exact h.readOffsets_eq
  · exact h.ensureOffsets_eq
  · rw [hg5, hmod5]
  · rw [hg7, hmod7]
  · omega
  · rw [hg5]
    exact readU32Le_of_drop hdrop5
  · rw [hg5]
    exact hbits'
  · rw [hg5, hg6]
    omega
  · rw [hg6, hg7]
    refine ⟨by omega, ⟨pad' ++ data.drop (sectionOffset headerLen sections 7), ?_⟩, ?_, by omega,
      hbitmap, bitAt_packBlockBody records n⟩
    · rw [← hbody, hdrop6, List.append_assoc]
    · rw [← hbody]
      omega
  · rw [hg7, hdrop7]
  · rw [hg7]
    exact hlt7

/-- The block area of what the encoder assembles. -/
theorem blockArea_of_assemblePacket {input : Packet T} {records : List Bytes}
    {txSegment b : Bytes} {n : ℕ} (hn : n ∈ prefixSizes)
    (h : assemblePacket input n records.length (packBlockBody records n).2
      (packBlockBody records n).1 txSegment = .ok b) :
    BlockArea b n records txSegment ((List.range headerOffsetCount).map
      (sectionOffset headerLen (packetSections input records.length (packBlockBody records n).2
        (packBlockBody records n).1 txSegment))) := by
  refine (isPacket_of_assemblePacket h).blockArea hn ?_ rfl rfl rfl ?_ ?_
  · rw [fixedHeader, List.getElem?_append_right (by simp)]
    simp
  · rw [blockHeaderOffset_eq, gasPriceSection, List.length_append, ← Nat.add_assoc]
    exact mod_add_length_padding (by omega)
  · rw [txSegmentOffset_eq, blockBodySection, List.length_append, ← Nat.add_assoc]
    exact mod_add_length_padding (by omega)

end Cfxpack
