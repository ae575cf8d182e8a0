import CfxMinimalExecution.Cfxpack.Decoded

/-!
# The verifier and the decoder agree

## Main definitions

* `Block.itemCount`, `itemTotal`: the transactions, rewards and unlock events of blocks

## Main results

* `countTransactions_eq`: the counts of the verifier are those of the decoded blocks
* `verifyPacket_agrees`: the report is about the decoded packet
-/

namespace Cfxpack

variable {T : PrimitiveTypes} {crates : Crates T}

/-- The number of items of a block. -/
def Block.itemCount (block : Block T) : ℕ :=
  block.transactions.length + block.posRewards.length + block.unlockEvents.length

/-- The number of items of blocks. -/
def itemTotal : List (Block T) → ℕ
  | [] => 0
  | block :: blocks => block.itemCount + itemTotal blocks

/-- Every item of a payload is in one of the lists. -/
theorem itemCount_withPayload (block : Block T) (items : List (PayloadItem T)) :
    (block.withPayload items).itemCount = items.length := by
  induction items with
  | nil => rfl
  | cons item items ih =>
    simp only [Block.itemCount, Block.withPayload] at ih ⊢
    cases item <;> simp only [List.filterMap_cons, List.length_cons] <;> omega

/-- The payload that the decoder reads has as many items as the verifier counts. -/
theorem decodeTxPayload_eq_ok {data : Bytes} {txSegmentOffset : ℕ} {units : UInt64} {flags : UInt8}
    {blockEpoch : UInt64} {addresses : List Address} {gasPrices : List U256}
    {senderBaseNonces : List SenderBaseNonce} {decodedTxs : List (List (SignedTransaction T))}
    {items : List (PayloadItem T)}
    (h : decodeTxPayload crates data txSegmentOffset units flags blockEpoch addresses gasPrices
      senderBaseNonces decodedTxs = .ok items) :
    ∃ decoded, readTxPayload crates data txSegmentOffset units.toNat flags = .ok decoded ∧
      crates.rlp.itemCount decoded = .ok items.length := by
  simp only [decodeTxPayload, Except.bind_eq_ok, passOn_eq_ok] at h
  obtain ⟨decoded, hdecoded, count, hcount, hitems⟩ := h
  have hlen := (mapM_eq_ok_iff.mp hitems).length_eq
  rw [List.length_range] at hlen
  exact ⟨decoded, hdecoded, hlen ▸ hcount⟩

/-- What becomes of a block in a round of the decoder: with the flag, it gets the items of its
payload. -/
def PayloadDecoded (crates : Crates T) (data : Bytes) (txSegmentOffset : ℕ)
    (addresses : List Address) (gasPrices : List U256) (senderBaseNonces : List SenderBaseNonce)
    (decodedTxs : List (List (SignedTransaction T))) (record : DecodedRecord)
    (block block' : Block T) : Prop :=
  (¬ block.has flagHasTransactions ∧ block' = block) ∨
    (block.has flagHasTransactions ∧ ∃ items, block' = block.withPayload items ∧
      decodeTxPayload crates data txSegmentOffset record.txOffsetUnits block.flags block.epoch
        addresses gasPrices senderBaseNonces decodedTxs = .ok items)

/-- **One round of the decoder.** -/
theorem decodeTransactions_eq_ok {data : Bytes} {txSegmentOffset : ℕ} {addresses : List Address}
    {gasPrices : List U256} {senderBaseNonces : List SenderBaseNonce} {record : DecodedRecord}
    {block block' : Block T} {decodedTxs decodedTxs' : List (List (SignedTransaction T))} :
    (decodeTransactions crates data txSegmentOffset addresses gasPrices senderBaseNonces
        (record, block)).run decodedTxs = .ok (block', decodedTxs') ↔
      PayloadDecoded crates data txSegmentOffset addresses gasPrices senderBaseNonces decodedTxs
        record block block' ∧ decodedTxs' = decodedTxs ++ [block'.transactions] := by
  unfold decodeTransactions PayloadDecoded
  by_cases hflag : block.has flagHasTransactions
  · simp only [hflag, if_true, StateT.run_bind, StateT.run_get, StateT.run_set, Except.bind_eq_ok,
      Prod.exists, Except.pure_def, Except.ok.injEq, Prod.mk.injEq, run_liftM_eq_ok,
      StateT.run_pure, not_true_eq_false, false_and, false_or, true_and]
    constructor
    · rintro ⟨_, _, ⟨rfl, rfl⟩, items, _, ⟨hitems, rfl⟩, _, _, ⟨rfl, rfl⟩, _, _, rfl, rfl, rfl⟩
      exact ⟨⟨items, rfl, hitems⟩, rfl⟩
    · rintro ⟨⟨items, rfl, hitems⟩, rfl⟩
      exact ⟨_, _, ⟨rfl, rfl⟩, items, _, ⟨hitems, rfl⟩, _, _, ⟨rfl, rfl⟩, (), _, rfl, rfl, rfl⟩
  · simp only [ExceptT.stM_eq, hflag, Bool.false_eq_true, if_false, bind_pure_comp, pure_bind,
      StateT.run_bind, StateT.run_get, Except.pure_def, StateT.run_map, StateT.run_set,
      Except.map_ok, Except.ok_bind, Except.ok.injEq, Prod.mk.injEq, not_false_eq_true, true_and,
      false_and, or_false]
    constructor
    · rintro ⟨rfl, rfl⟩
      exact ⟨rfl, rfl⟩
    · rintro ⟨rfl, rfl⟩
      exact ⟨rfl, rfl⟩

/-! ## The counts -/

/-- One round of the verifier. -/
theorem countRecord_eq_ok {data : Bytes} {txSegmentOffset : ℕ} {counts counts' : UInt32 × UInt32}
    {record : Bytes} {flags : UInt8} (hflags : record[44]? = some flags)
    (h : countRecord crates data txSegmentOffset counts record = .ok counts') :
    (flags &&& flagHasTransactions = 0 ∧ counts' = counts) ∨
      (flags &&& flagHasTransactions ≠ 0 ∧ ∃ units decoded count,
        peekTxOffsetUnits record = .ok units ∧
        readTxPayload crates data txSegmentOffset units.toNat flags = .ok decoded ∧
        crates.rlp.itemCount decoded = .ok count ∧
        counts' = (counts.1 + 1, counts.2 + UInt32.ofNat count)) := by
  simp only [countRecord, Except.bind_eq_ok, ensure_eq_ok, indexAt_eq_ok, hflags,
    Option.some.injEq] at h
  obtain ⟨_, -, _, rfl, h⟩ := h
  split at h
  case isTrue hflag => exact .inl ⟨hflag, (Except.ok.inj h).symm⟩
  case isFalse hflag =>
    simp only [Except.bind_eq_ok, context_eq_ok, passOn_eq_ok, skipToTxOffset_eq_ok] at h
    obtain ⟨blocks, hblocks, units, hunits, decoded, hdecoded, count, hcount, items, hitems, hcounts⟩ := h
    refine .inr ⟨hflag, units, decoded, count, hunits, hdecoded, hcount, ?_⟩
    rw [← Except.ok.inj hcounts, Profile.addU32_eq_ok hblocks, Profile.addU32_eq_ok hitems]

/-- The payload of a block, and what the verifier counts of it. -/
theorem countRecord_payloadDecoded {data : Bytes} {txSegmentOffset : ℕ} {addresses : List Address}
    {gasPrices : List U256} {senderBaseNonces : List SenderBaseNonce} {record : DecodedRecord}
    {block block' : Block T} {decodedTxs : List (List (SignedTransaction T))}
    {counts counts' : UInt32 × UInt32} (hblock : IsBlockOf record block)
    (hunits : peekTxOffsetUnits record.bytes = .ok record.txOffsetUnits)
    (hdecoded : PayloadDecoded crates data txSegmentOffset addresses gasPrices senderBaseNonces
      decodedTxs record block block')
    (hcount : countRecord crates data txSegmentOffset counts record.bytes = .ok counts') :
    counts' = (counts.1 + if block'.has flagHasTransactions then 1 else 0,
      counts.2 + UInt32.ofNat block'.itemCount) := by
  obtain ⟨hflags, htransactions, hrewards, hunlocks⟩ := hblock
  rcases hdecoded with ⟨hflag, rfl⟩ | ⟨hflag, items, rfl, hitems⟩
  · have hzero : block'.flags &&& flagHasTransactions = 0 := by simpa [Block.has] using hflag
    have hnone : block'.itemCount = 0 := by
      simp [Block.itemCount, htransactions, hrewards, hunlocks]
    rcases countRecord_eq_ok hflags hcount with ⟨-, rfl⟩ | ⟨hne, -⟩
    · simp [hflag, hnone]
    · exact absurd hzero hne
  · have hne : block.flags &&& flagHasTransactions ≠ 0 := by simpa [Block.has] using hflag
    obtain ⟨decoded, hread, hitemCount⟩ := decodeTxPayload_eq_ok hitems
    rcases countRecord_eq_ok hflags hcount with ⟨hzero, -⟩ | ⟨-, units, decoded', count, hunits',
      hread', hcount', rfl⟩
    · exact absurd hzero hne
    · obtain rfl := Except.ok.inj (hunits.symm.trans hunits')
      obtain rfl := Except.ok.inj (hread.symm.trans hread')
      obtain rfl := Except.ok.inj (hitemCount.symm.trans hcount')
      have hhas : (block.withPayload items).has flagHasTransactions := hflag
      rw [itemCount_withPayload, if_pos hhas]

/-- **The counts of the verifier** are those of the decoded blocks. -/
theorem countTransactions_eq {data : Bytes} {txSegmentOffset : ℕ} {addresses : List Address}
    {gasPrices : List U256} {senderBaseNonces : List SenderBaseNonce} {records : List DecodedRecord}
    {blocks blocks' : List (Block T)} {decodedTxs decodedTxs' : List (List (SignedTransaction T))}
    {counts counts' : UInt32 × UInt32}
    (hblocks : List.Forall₂ IsBlockOf records blocks)
    (hunits : ∀ record ∈ records, peekTxOffsetUnits record.bytes = .ok record.txOffsetUnits)
    (hrounds : Rounds (decodeTransactions crates data txSegmentOffset addresses gasPrices
      senderBaseNonces) decodedTxs (records.zip blocks) blocks' decodedTxs')
    (hcounts : (records.map (·.bytes)).foldlM (countRecord crates data txSegmentOffset) counts =
      .ok counts') :
    counts' = (counts.1 + UInt32.ofNat (blocks'.countP (·.has flagHasTransactions)),
      counts.2 + UInt32.ofNat (itemTotal blocks')) := by
  induction hblocks generalizing decodedTxs blocks' counts with
  | nil =>
    obtain ⟨⟩ := hrounds
    obtain rfl := Except.ok.inj hcounts
    simp [itemTotal]
  | cons hblock _ ih =>
    obtain ⟨⟩ | ⟨hround, hrest⟩ := hrounds
    rw [List.map_cons, List.foldlM_cons, Except.bind_eq_ok] at hcounts
    obtain ⟨middle, hfirst, hcounts⟩ := hcounts
    obtain ⟨hdecoded, -⟩ := decodeTransactions_eq_ok.mp hround
    obtain ⟨hunit, hunits⟩ := List.forall_mem_cons.mp hunits
    have hmiddle := countRecord_payloadDecoded hblock hunit hdecoded hfirst
    rw [ih hunits hrest hcounts, hmiddle, List.countP_cons, itemTotal]
    simp only [UInt32.ofNat_add, UInt32.add_assoc]
    refine congrArg (·, _) (congrArg (counts.1 + ·) ?_)
    rw [UInt32.add_comm]
    split <;> simp_all

/-- **The report is about the decoded packet**, whatever the data and the height. -/
theorem verifyPacket_agrees {data : Bytes} {height : UInt64} {report : VerifyReport}
    {packet : Packet T} (hverify : verifyPacket crates data = .ok report)
    (hdecode : decodePacketExt crates data height = .ok packet) :
    report.blockCount.toNat = packet.blocks.length ∧
      report.transactionBlocks.toNat = packet.blocks.countP (·.has flagHasTransactions) ∧
      report.transactionItems.toNat = itemTotal packet.blocks % UInt32.size := by
  obtain ⟨records, blocks, txSegmentOffset, addresses, gasPrices, senderBaseNonces, decodedTxs,
    hrecords, hunits, hblocks, hrounds⟩ := exists_rounds_of_decodePacketExt hdecode
  obtain ⟨bytes, _, hbytes, hcount, hcounts⟩ := exists_counts_of_verifyPacket hverify
  obtain ⟨rfl, rfl⟩ := hrecords.unique hbytes
  have hlen : packet.blocks.length = records.length := by
    rw [hrounds.length_eq, List.length_zip, ← hblocks.length_eq, Nat.min_self]
  have heq := countTransactions_eq hblocks hunits hrounds hcounts
  obtain ⟨hblockCount, hitemCount⟩ := Prod.mk.inj heq
  rw [List.length_map] at hcount
  refine ⟨hcount.trans hlen.symm, ?_, ?_⟩
  · have hle : packet.blocks.countP (·.has flagHasTransactions) ≤ packet.blocks.length :=
      List.countP_le_length
    have hlt := report.blockCount.toNat_lt
    rw [hblockCount, UInt32.zero_add, UInt32.toNat_ofNat_of_lt' (by rw [UInt32.size]; omega)]
  · rw [hitemCount, UInt32.zero_add, UInt32.toNat_ofNat']

end Cfxpack
