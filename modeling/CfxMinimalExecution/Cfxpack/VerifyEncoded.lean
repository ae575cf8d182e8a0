import CfxMinimalExecution.Cfxpack.Agreement
import CfxMinimalExecution.Cfxpack.FlagSites
import CfxMinimalExecution.Cfxpack.PayloadItems
import CfxMinimalExecution.Cfxpack.PayloadReads
import CfxMinimalExecution.Cfxpack.PlainCrates

/-!
# The verifier accepts what the encoder writes

## Main results

* `BlockArea.collectBlockRecords_eq`: the verifier finds the records
* `IsEncoding.countedAs`: what the verifier counts of a record
* `verifyPacket_spec`: the verifier accepts what the encoder writes, and agrees with the decoder
-/

namespace Cfxpack

variable {T : PrimitiveTypes} {crates : Crates T}

/-! ## The records -/

theorem exists_readU64Le {data : Bytes} {offset : ℕ} (h : offset + 8 ≤ data.length) :
    ∃ value, readU64Le data offset = .ok value := by
  have hslice : slice data offset (offset + 8) = .ok ((data.take (offset + 8)).drop offset) :=
    slice_eq_ok.mpr ⟨⟨by omega, h⟩, rfl⟩
  exact ⟨_, by rw [readU64Le, ensure_of h, Except.ok_bind, hslice]; rfl⟩

theorem exists_readU32Le {data : Bytes} {offset : ℕ} (h : offset + 4 ≤ data.length) :
    ∃ value, readU32Le data offset = .ok value := by
  have hslice : slice data offset (offset + 4) = .ok ((data.take (offset + 4)).drop offset) :=
    slice_eq_ok.mpr ⟨⟨by omega, h⟩, rfl⟩
  exact ⟨_, by rw [readU32Le, ensure_of h, Except.ok_bind, hslice]; rfl⟩

/-- **The verifier finds the records**, each with the zeros that fill its prefix. -/
theorem BlockArea.collectBlockRecords_eq {data : Bytes} {n : ℕ} {records : List Bytes}
    {txSegment : Bytes} {offsets : List ℕ} (h : BlockArea data n records txSegment offsets)
    (profile : Profile) :
    collectBlockRecords profile data (offsets.getD 6 0) (offsets.getD 7 0) records.length n
      (packBlockBody records n).2 = .ok (records.map (paddedRecord n)) := by
  have hle := h.packed.overflow_le records.length
  rw [List.take_length] at hle
  have hrun := mapM_run_eq_ok.mpr (h.packed.rounds_reassembleRecord profile)
  simp only [collectBlockRecords, hrun, ensure_of hle, Except.ok_bind, Except.pure_def]

/-! ## The counts -/

theorem isBare_iff {block : Block T} : block.IsBare ↔ block.itemCount = 0 := by
  simp [Block.IsBare, Block.itemCount, and_assoc]

/-- A record with a payload adds a block and the items of the payload. -/
def CountedAs (crates : Crates T) (data : Bytes) (txSegmentOffset : ℕ) (block : Block T)
    (record : Bytes) : Prop :=
  ∀ counts, countRecord crates data txSegmentOffset counts record =
    if block.itemCount = 0 then .ok counts
    else do
      let transactionBlocks ← crates.addU32 counts.1 1
      let transactionItems ← crates.addU32 counts.2 (UInt32.ofNat block.itemCount)
      pure (transactionBlocks, transactionItems)

/-- The items of a block are added without an overflow, or the build does not check it. -/
theorem exists_addU32_iff {count : UInt32} {n : ℕ} (hn : n < UInt32.size) :
    (∃ sum, crates.addU32 count (UInt32.ofNat n) = .ok sum) ↔
      (crates.overflowChecks → count.toNat + n < UInt32.size) := by
  have hword : (UInt32.ofNat n).toNat = n := UInt32.toNat_ofNat_of_lt' hn
  constructor
  · rintro ⟨sum, hsum⟩ hchecks
    by_contra hge
    rw [Profile.addU32, if_pos ⟨hchecks, by omega⟩] at hsum
    cases hsum
  · intro hlt
    refine ⟨_, if_neg fun hc => ?_⟩
    have hlt := hlt hc.1
    omega

/-- The counts do not overflow: there are fewer than 2^32 records, and as many items in a build with
overflow checks. -/
theorem exists_countTransactions_iff {data : Bytes} {txSegmentOffset : ℕ} {blocks : List (Block T)}
    {records : List Bytes} (h : List.Forall₂ (CountedAs crates data txSegmentOffset) blocks records)
    {counts : UInt32 × UInt32} (hblocks : counts.1.toNat + blocks.length < UInt32.size)
    (hcounts : ∀ block ∈ blocks, block.itemCount < UInt32.size) :
    (∃ counts', records.foldlM (countRecord crates data txSegmentOffset) counts = .ok counts') ↔
      (crates.overflowChecks → counts.2.toNat + itemTotal blocks < UInt32.size) := by
  have hsize : UInt32.size = 4294967296 := rfl
  induction h generalizing counts with
  | nil =>
    have hlt := counts.2.toNat_lt
    exact ⟨fun _ _ => by rw [itemTotal]; omega, fun _ => ⟨counts, rfl⟩⟩
  -- induction on the blocks, over the counts before them
  | @cons block record blocks records hrecord _ ih =>
    obtain ⟨hfirst, hrest⟩ := List.forall_mem_cons.mp hcounts
    rw [List.foldlM_cons, hrecord counts, itemTotal]
    rw [List.length_cons] at hblocks
    split
    case isTrue hzero =>
      have hnext := @ih counts (by omega) hrest
      rw [hzero, Nat.zero_add]
      exact hnext
    -- a block with items: both sums are checked, and the first one is below the number of blocks
    case isFalse =>
      have hone : crates.addU32 counts.1 1 = .ok (counts.1 + 1) :=
        Profile.addU32_of_lt (by rw [UInt32.toNat_one]; omega)
      have hcount : (counts.1 + 1).toNat + blocks.length < UInt32.size := by
        rw [UInt32.toNat_add, UInt32.toNat_one, Nat.mod_eq_of_lt (by omega)]
        omega
      have hadd := @exists_addU32_iff T crates counts.2 _ hfirst
      rw [hone, Except.ok_bind]
      cases hsum : crates.addU32 counts.2 (UInt32.ofNat block.itemCount) with
      | error e =>
        -- the sum overflows, and so does the total
        have hnot := mt hadd.mpr (by simp [hsum])
        simp only [Except.error_bind, reduceCtorEq, exists_const, false_iff]
        intro hlt
        exact hnot fun hchecks => by
          have hlt := hlt hchecks
          omega
      | ok sum =>
        have hlt := hadd.mp ⟨sum, hsum⟩
        obtain rfl := Profile.addU32_eq_ok hsum
        have hnext := @ih (counts.1 + 1, counts.2 + UInt32.ofNat block.itemCount) hcount hrest
        refine hnext.trans (forall_congr' fun hchecks => ?_)
        rw [UInt32.toNat_add, UInt32.toNat_ofNat_of_lt' hfirst, Nat.mod_eq_of_lt (hlt hchecks),
          Nat.add_assoc]

/-- The payload of a block spells as many items as the block has. -/
theorem IsEncoding.exists_payload {input : Packet T} {b : Bytes} {txPayloads records : List Bytes}
    {txSegment txPayload : Bytes} {i : ℕ} {block : Block T}
    (h : IsEncoding crates input b txPayloads records txSegment)
    (hblock : input.blocks[i]? = some block) (hpayload : txPayloads[i]? = some txPayload) :
    (block.itemCount = 0 ∧ txPayload = []) ∨
      (block.itemCount ≠ 0 ∧ ∃ items : List (RlpItem T), items.length = block.itemCount ∧
        txPayload = crates.rlp.encode (.list items)) := by
  obtain ⟨seenTxs, hrounds⟩ := h.payloads
  obtain ⟨block', _, _, hblock', hround⟩ := hrounds.exists_round hpayload
  obtain rfl := Option.some.inj (hblock.symm.trans hblock')
  rcases encodeTxPayload_eq_ok.mp hround with ⟨hbare, rfl, -⟩ | ⟨hbare, items, hitems, rfl⟩
  · exact .inl ⟨isBare_iff.mp hbare, rfl⟩
  · have hlen := hitems.length_eq
    rw [List.length_zipIdx] at hlen
    exact .inr ⟨mt isBare_iff.mpr hbare, _, by simp [blockItems, Block.itemCount, hlen, Nat.add_assoc], rfl⟩

/-- A payload has fewer than 2^32 items. -/
theorem IsEncoding.itemCount_lt {input : Packet T} {b : Bytes} {txPayloads records : List Bytes}
    {txSegment : Bytes} {i : ℕ} {block : Block T} (hlawful : crates.Lawful)
    (h : IsEncoding crates input b txPayloads records txSegment)
    (hblock : input.blocks[i]? = some block) : block.itemCount < UInt32.size := by
  have hi := (List.getElem?_eq_some_iff.mp hblock).1
  have hlen := h.length_records
  obtain ⟨block', txPayload, _, _, hblock', hpayload, -, -, hstored⟩ :=
    h.exists_record (List.getElem?_eq_getElem (by omega : i < records.length))
  obtain rfl := Option.some.inj (hblock.symm.trans hblock')
  rcases h.exists_payload hblock hpayload with ⟨hzero, -⟩ | ⟨hne, items, hitems, rfl⟩
  · rw [hzero]
    decide
  · have hle := hlawful.rlp.length_items_le items
    obtain ⟨payload, _, _, hpayload, -⟩ := hstored (List.ne_nil_of_length_pos (by omega))
    have hlt := length_lt_of_storedPayload hlawful.snap hpayload
    omega

/-- **What the verifier counts of a record.** -/
theorem IsEncoding.countedAs {input : Packet T} {b : Bytes} {txPayloads records : List Bytes}
    {txSegment : Bytes} {offsets : List ℕ} {n : ℕ} (hlawful : crates.Lawful)
    (h : IsEncoding crates input b txPayloads records txSegment)
    (harea : BlockArea b n records txSegment offsets) (hsize : b.length < UInt64.size) {i : ℕ}
    {block : Block T} {record : Bytes} (hblock : input.blocks[i]? = some block)
    (hrecord : records[i]? = some record) :
    CountedAs crates b (offsets.getD 7 0) block (paddedRecord n record) := by
  obtain ⟨block', txPayload, fields, units, hblock', hpayload, hfields, rfl, hstored⟩ :=
    h.exists_record hrecord
  obtain rfl := Option.some.inj (hblock.symm.trans hblock')
  obtain ⟨zeros, hpadded⟩ := paddedRecord_eq n
    (recordHead block ++ recordFlags block txPayload :: fields.toBytes input block units)
  rw [List.append_assoc, List.cons_append] at hpadded
  have hflags := getElem?_flags block (recordFlags block txPayload)
    (fields.toBytes input block units ++ zeros)
  have hpeek : peekTxOffsetUnits (recordHead block ++ recordFlags block txPayload ::
      (fields.toBytes input block units ++ zeros)) = .ok units :=
    peekTxOffsetUnits_toBytes hfields.reads
  have hunits := skipToTxOffset_eq_ok.mpr hpeek
  have hlen : 45 ≤ (recordHead block ++ recordFlags block txPayload ::
      (fields.toBytes input block units ++ zeros)).length := by
    simp
    omega
  rw [hpadded]
  generalize recordHead block ++ recordFlags block txPayload ::
    (fields.toBytes input block units ++ zeros) = padded at *
  intro counts
  rw [countRecord, ensure_of hlen, Except.ok_bind, indexAt_eq_ok.mpr hflags, Except.ok_bind]
  rcases h.exists_payload hblock hpayload with ⟨hzero, rfl⟩ | ⟨hne, items, hitems, rfl⟩
  · rw [if_pos hzero, if_pos]
    · rfl
    · exact not_not.mp (mt (recordFlags_hasTransactions block []).mp (by simp))
  · have hpos : crates.rlp.encode (.list items) ≠ [] := by
      have hle := hlawful.rlp.length_items_le items
      refine List.ne_nil_of_length_pos ?_
      omega
    obtain hstored := hstored hpos
    have hread := harea.readTxPayload_eq hlawful.snap hsize hstored
      (recordFlags_txCompressed block _)
    obtain ⟨payload, _, _, hpayload', -⟩ := hstored
    have hlt := length_lt_of_storedPayload hlawful.snap hpayload'
    have hcount := hlawful.rlp.itemCount_encode items (hlt.trans (by decide))
    rw [if_neg hne, if_neg ((recordFlags_hasTransactions block _).mpr hpos)]
    simp only [hunits, hread, hcount, hitems, context, passOn_ok, Except.ok_bind]

/-! ## The report -/

/-- **The verifier accepts what the encoder writes** exactly when it can count the items: in a build
with overflow checks, they are counted in 32 bits. -/
theorem IsEncoding.exists_report_iff {input : Packet T} {b : Bytes} {txPayloads records : List Bytes}
    {txSegment : Bytes} (hlawful : crates.Lawful)
    (h : IsEncoding crates input b txPayloads records txSegment) (hsize : b.length < UInt64.size) :
    (∃ report, verifyPacket crates b = .ok report) ↔
      (crates.overflowChecks → itemTotal input.blocks < UInt32.size) := by
  obtain ⟨offsets, harea⟩ := h.blockArea
  have hheader := harea.headerLen_le
  have hheaderLen : headerLen = 125 := rfl
  obtain ⟨firstBlockNumber, hfirst⟩ : ∃ value, readU64Le b 64 = .ok value :=
    exists_readU64Le (by omega)
  obtain ⟨minTimestamp, htimestamp⟩ : ∃ value, readU64Le b 72 = .ok value :=
    exists_readU64Le (by omega)
  obtain ⟨minHeight, hminHeight⟩ : ∃ value, readU64Le b 80 = .ok value :=
    exists_readU64Le (by omega)
  obtain ⟨minPosHeight, hminPosHeight⟩ : ∃ value, readU32Le b 88 = .ok value :=
    exists_readU32Le (by omega)
  have hlen := h.length_records
  have hlt := harea.length_lt
  have hcounted : List.Forall₂ (CountedAs crates b (offsets.getD 7 0)) input.blocks
      (records.map (paddedRecord (choosePrefixSize records))) := by
    refine List.forall₂_map_right_iff.mpr (List.forall₂_iff_get.mpr ⟨hlen.symm, fun i hi hi' => ?_⟩)
    exact h.countedAs hlawful harea hsize (List.getElem?_eq_getElem hi) (List.getElem?_eq_getElem hi')
  have hcounts : (∃ counts, countTransactions crates b
      (records.map (paddedRecord (choosePrefixSize records))) (offsets.getD 7 0) = .ok counts) ↔
        (crates.overflowChecks → itemTotal input.blocks < UInt32.size) := by
    have hzero : (0 : UInt32).toNat + input.blocks.length < UInt32.size := by
      rw [UInt32.toNat_zero]
      omega
    have hiff := @exists_countTransactions_iff T crates b (offsets.getD 7 0) _ _ hcounted (0, 0) hzero
      fun block hblock => by
        obtain ⟨i, hi⟩ := List.getElem?_of_mem hblock
        exact h.itemCount_lt hlawful hi
    rwa [UInt32.toNat_zero, Nat.zero_add] at hiff
  have hmem : choosePrefixSize records ∈ [64, 72, 80, 88, 96] := harea.prefixSize_mem
  have hcount : offsets.getD 5 0 + 4 ≤ b.length := by
    have hbitmap := (slice_eq_ok.mp harea.bitmap).1
    omega
  have hrecords := harea.collectBlockRecords_eq crates.toProfile
  have hbitmap := harea.bitmap
  have harea7 := harea.prefixArea_le
  have hmul := harea.checkedMul_eq
  have hbitmapLe := harea.bitmap_le
  rw [← hcounts]
  unfold verifyPacket
  simp only [ensure_of hheader, hfirst, htimestamp, hminHeight, hminPosHeight, harea.prefixSize,
    ensure_of hmem, harea.readOffsets, harea.ensureOffsets, ensure_of harea.blockHeader_aligned,
    ensure_of harea.txSegment_aligned, ensure_of hcount, harea.blockCount, harea.toNat_blockCount,
    ensure_of hbitmapLe, hbitmap, harea.toNat_prefixSize, hmul, okOr,
    ensure_of harea7, hrecords, Except.ok_bind, Except.pure_def]
  constructor
  · rintro ⟨report, hreport⟩
    obtain ⟨counts, hcounts, -⟩ := Except.bind_eq_ok.mp hreport
    exact ⟨counts, hcounts⟩
  · rintro ⟨counts, hcounts⟩
    rw [hcounts]
    exact ⟨_, rfl⟩

/-- **The verifier accepts what the encoder writes.** In a build with overflow checks, the items
are counted in 32 bits. -/
theorem IsEncoding.exists_report {input : Packet T} {b : Bytes} {txPayloads records : List Bytes}
    {txSegment : Bytes} (hlawful : crates.Lawful)
    (h : IsEncoding crates input b txPayloads records txSegment) (hsize : b.length < UInt64.size)
    (hitems : crates.overflowChecks → itemTotal input.blocks < UInt32.size) :
    ∃ report, verifyPacket crates b = .ok report :=
  (h.exists_report_iff hlawful hsize).mpr hitems

/-- **The verifier and the decoder agree.** -/
theorem verifyPacket_spec (hlawful : crates.Lawful) :
    (∀ (input : Packet T) (b : Bytes), encodePacket crates input = .ok b → b.length < UInt64.size →
      (crates.overflowChecks → itemTotal input.blocks < UInt32.size) →
        ∃ report, verifyPacket crates b = .ok report) ∧
      ∀ (data : Bytes) (height : UInt64) (report : VerifyReport) (packet : Packet T),
        verifyPacket crates data = .ok report → decodePacketExt crates data height = .ok packet →
          report.blockCount.toNat = packet.blocks.length ∧
          report.transactionBlocks.toNat = packet.blocks.countP (·.has flagHasTransactions) ∧
          report.transactionItems.toNat = itemTotal packet.blocks % UInt32.size := by
  refine ⟨fun input b hencode hsize hitems => ?_, fun data height report packet => ?_⟩
  · obtain ⟨_, _, _, h⟩ := encodePacket_iff.mp hencode
    exact h.exists_report hlawful hsize hitems
  · exact verifyPacket_agrees

theorem verifyPacket_spec_transfer : ∃ report packet,
    verifyPacket plainCrates transferBytes = .ok report ∧
      decodePacketExt plainCrates transferBytes 6 = .ok packet ∧
      report.blockCount.toNat = packet.blocks.length ∧
      report.transactionBlocks.toNat = packet.blocks.countP (·.has flagHasTransactions) ∧
      report.transactionItems.toNat = itemTotal packet.blocks % UInt32.size ∧
      packet.blocks.length = 2 ∧ itemTotal packet.blocks = 3 := by
  obtain ⟨haccepts, hagrees⟩ := verifyPacket_spec plainCrates_lawful
  obtain ⟨report, hreport⟩ := haccepts (transferPacket 10) transferBytes encodePacket_transferPacket
    (by rw [length_transferBytes]; decide) fun _ => by decide
  have hdecodes : (decodePacketExt plainCrates transferBytes 6).map
      (fun packet => (packet.blocks.length, itemTotal packet.blocks)) = .ok (2, 3) := by
    decide +kernel
  obtain ⟨packet, hdecode, hcounts⟩ := Except.map_eq_ok.mp hdecodes
  obtain ⟨hblocks, htxBlocks, hitems⟩ := hagrees _ _ _ _ hreport hdecode
  obtain ⟨hlength, htotal⟩ := Prod.mk.inj hcounts
  exact ⟨report, packet, hreport, hdecode, hblocks, htxBlocks, hitems, hlength, htotal⟩

end Cfxpack
