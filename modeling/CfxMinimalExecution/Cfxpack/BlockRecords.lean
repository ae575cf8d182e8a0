import CfxMinimalExecution.Cfxpack.Encoded
import CfxMinimalExecution.Cfxpack.ValidInput

/-!
# The records of the blocks, and their payloads

## Main definitions

* `recordHead`, `RecordFields`: a record before and after its flags
* `payloadFlags`, `Appended`: a payload in the transaction segment, and the flags that tell of it

## Main results

* `encodeBlockRecord_eq_ok`: a record is its head, its flags and its fields
* `encodeBlock_eq_ok`: what the encoder writes for a block
-/

namespace Cfxpack

variable {T : PrimitiveTypes} {crates : Crates T}

/-! ## Records -/

/-- A record before its flags. -/
def recordHead (block : Block T) : Bytes :=
  block.hash.asBytes ++ block.deferredStateRoot.asBytes.take 4 ++
    block.deferredReceiptsRoot.asBytes.take 4 ++ block.deferredLogsBloomHash.asBytes.take 4

@[simp] theorem length_recordHead (block : Block T) : (recordHead block).length = 44 := by
  simp [recordHead]

theorem putQc8_append (out : Bytes) (value : U256) :
    putQc8 out value = (out ++ ·) <$> putQc8 [] value := by
  unfold putQc8
  cases putModes _ _ _ _ <;> rfl

theorem putQc5e_append (out : Bytes) (value : U256) (enumValue : Option UInt8) :
    putQc5e out value enumValue = (out ++ ·) <$> putQc5e [] value enumValue := by
  unfold putQc5e
  cases enumValue with
  | none => simp only; cases putModes _ _ _ _ <;> rfl
  | some v => simp only; cases ensure (v < 64) _ <;> rfl

/-- The bytes of the fields of a record, one by one. -/
structure FieldBytes where
  author : ℕ
  difficulty : ℕ
  gasLimit : Bytes
  basePriceCore : Bytes
  basePriceEspace : Bytes
  baseReward : Bytes

/-- The end of a record. -/
def posViewBytes (input : Packet T) (block : Block T) : Bytes :=
  ((block.posView.map fun posView => uleb128 (saturatingSub posView input.minPosHeight))).getD []

def FieldBytes.toBytes (fields : FieldBytes) (input : Packet T) (block : Block T)
    (txSegmentOffset : UInt64) : Bytes :=
  uleb128 (UInt64.ofNat fields.author) ++ (uleb128 (block.timestamp - input.minTimestamp) ++
    (uleb128 (UInt64.ofNat fields.difficulty) ++ (fields.gasLimit ++ (fields.basePriceCore ++
      (fields.basePriceEspace ++ (uleb128 (block.height - input.minHeight) ++
        (uleb128 block.blame ++ (uleb128 block.finalizedEpoch ++ (uleb128 txSegmentOffset ++
          (fields.baseReward ++ posViewBytes input block))))))))))

/-- The fields of a block, when the encoder has no error. -/
structure RecordFields (input : Packet T) (addressIndex : Assoc Address ℕ)
    (difficultyIndex : Assoc U256 ℕ) (block : Block T) (fields : FieldBytes) : Prop where
  author : addressIndex.get block.author = some fields.author
  minTimestamp_le : input.minTimestamp ≤ block.timestamp
  difficulty : difficultyIndex.get block.difficulty = some fields.difficulty
  gasLimit : putQc5e [] block.gasLimit (qc5eGasLimitEnum block.gasLimit) = .ok fields.gasLimit
  basePriceCore : putQc5e [] block.basePriceCore (qc5eBasePriceEnum block.basePriceCore false) =
    .ok fields.basePriceCore
  basePriceEspace : putQc5e [] block.basePriceEspace
    (qc5eBasePriceEnum block.basePriceEspace true) = .ok fields.basePriceEspace
  minHeight_le : input.minHeight ≤ block.height
  baseReward : putQc8 [] block.baseReward = .ok fields.baseReward

theorem checkedSub_eq_some {a b c : UInt64} : checkedSub a b = some c ↔ b ≤ a ∧ a - b = c := by
  unfold checkedSub
  split <;> simp_all

/-- **A record is its head, its flags and its fields.** -/
theorem encodeBlockRecord_eq_ok {input : Packet T} {addressIndex : Assoc Address ℕ}
    {difficultyIndex : Assoc U256 ℕ} {block : Block T} {flags : UInt8} {txSegmentOffset : UInt64}
    {record : Bytes} :
    encodeBlockRecord input addressIndex difficultyIndex block flags txSegmentOffset = .ok record ↔
      ∃ fields, RecordFields input addressIndex difficultyIndex block fields ∧
        record = recordHead block ++ flags :: fields.toBytes input block txSegmentOffset := by
  constructor
  · intro h
    -- every field that is written appends its bytes to those before
    simp only [encodeBlockRecord, putUleb128, Except.bind_eq_ok, okOr_eq_ok, checkedSub_eq_some,
      Except.pure_def] at h
    obtain ⟨author, hauthor, _, ⟨htimestamp, rfl⟩, difficulty, hdifficulty, out₁, hgas, out₂, hcore,
      out₃, hespace, _, ⟨hheight, rfl⟩, out₄, hreward, hlast⟩ := h
    rw [putQc5e_append] at hgas hcore hespace
    rw [putQc8_append] at hreward
    obtain ⟨gasLimit, hgas', rfl⟩ := Except.map_eq_ok.mp hgas
    obtain ⟨basePriceCore, hcore', rfl⟩ := Except.map_eq_ok.mp hcore
    obtain ⟨basePriceEspace, hespace', rfl⟩ := Except.map_eq_ok.mp hespace
    obtain ⟨baseReward, hreward', rfl⟩ := Except.map_eq_ok.mp hreward
    refine ⟨⟨author, difficulty, gasLimit, basePriceCore, basePriceEspace, baseReward⟩,
      ⟨hauthor, htimestamp, hdifficulty, hgas', hcore', hespace', hheight, hreward'⟩, ?_⟩
    unfold FieldBytes.toBytes posViewBytes recordHead
    cases hpos : block.posView <;> rw [hpos] at hlast <;> simp only [Except.ok.injEq] at hlast <;>
      simp [← hlast]
  -- conversely each field is written, whatever stands before it
  · rintro ⟨fields, h, rfl⟩
    have htimestamp : checkedSub block.timestamp input.minTimestamp = _ :=
      checkedSub_eq_some.mpr ⟨h.minTimestamp_le, rfl⟩
    have hheight : checkedSub block.height input.minHeight = _ :=
      checkedSub_eq_some.mpr ⟨h.minHeight_le, rfl⟩
    have hput : ∀ out {value enumValue x}, putQc5e [] value enumValue = .ok x →
        putQc5e out value enumValue = .ok (out ++ x) := fun out value enumValue x hx => by
      rw [putQc5e_append, hx]
      rfl
    have hreward : ∀ out, putQc8 out block.baseReward = .ok (out ++ fields.baseReward) := fun out => by
      rw [putQc8_append, h.baseReward]
      rfl
    unfold encodeBlockRecord FieldBytes.toBytes posViewBytes recordHead
    simp only [h.author, h.difficulty, htimestamp, hheight, okOr, putUleb128, Except.ok_bind,
      hput _ h.gasLimit, hput _ h.basePriceCore, hput _ h.basePriceEspace, hreward, Except.pure_def]
    cases block.posView <;> simp

/-! ## Payloads -/

/-- The flags that tell of a payload. -/
def payloadFlags (txPayload : Bytes) : UInt8 :=
  if txPayload = [] then 0
  else if 512 < txPayload.length then flagHasTransactions ||| flagTxCompressed
  else flagHasTransactions

/-- The payload as it stands in the segment. -/
def storedPayload (crates : Crates T) (txPayload : Bytes) : Result Bytes :=
  if 512 < txPayload.length then
    context "snappy-compress tx payload" (passOn (crates.snap.compressVec txPayload))
  else pure txPayload

/-- A payload is appended to the segment, at an offset in units of four bytes. -/
def Appended (crates : Crates T) (txPayload segment : Bytes) (txSegmentOffset : UInt64)
    (segment' : Bytes) : Prop :=
  (txPayload = [] ∧ txSegmentOffset = 0 ∧ segment' = segment) ∨
    (txPayload ≠ [] ∧ ∃ payload, storedPayload crates txPayload = .ok payload ∧
      txSegmentOffset = UInt64.ofNat ((alignTo segment 4).length / 4) ∧
      segment' = alignTo segment 4 ++ (uleb128 (UInt64.ofNat payload.length) ++ payload))

theorem appendTxPayload_eq_ok {flags flags' : UInt8} {txPayload segment segment' : Bytes}
    {txSegmentOffset : UInt64} :
    (appendTxPayload crates flags txPayload).run segment =
        .ok ((flags', txSegmentOffset), segment') ↔
      flags' = flags ||| payloadFlags txPayload ∧
        Appended crates txPayload segment txSegmentOffset segment' := by
  unfold appendTxPayload payloadFlags Appended
  by_cases hempty : txPayload = []
  · simp [hempty, eq_comm, and_assoc]
  · by_cases hlong : 512 < txPayload.length
    · simp only [ExceptT.stM_eq, hempty, if_false, hlong, if_true, UInt8.or_assoc, putUleb128,
        List.append_assoc, bind_pure_comp, pure_bind, StateT.run_bind, StateT.run_get,
        Except.pure_def, StateT.run_monadLift, monadLift_self, StateT.run_map, StateT.run_set,
        Except.map_ok, bind_assoc, Except.ok_bind, Except.bind_eq_ok, context_eq_ok, passOn_eq_ok,
        Except.ok.injEq, Prod.mk.injEq, false_and, ne_eq, not_false_eq_true, storedPayload,
        true_and, false_or]
      constructor
      · rintro ⟨payload, hpayload, ⟨rfl, rfl⟩, rfl⟩
        exact ⟨rfl, payload, hpayload, rfl, rfl⟩
      · rintro ⟨rfl, payload, hpayload, rfl, rfl⟩
        exact ⟨payload, hpayload, ⟨rfl, rfl⟩, rfl⟩
    · simp [hempty, hlong, storedPayload, putUleb128, eq_comm, and_assoc]

/-- **What the encoder writes for a block.** -/
theorem encodeBlock_eq_ok {input : Packet T} {addressIndex : Assoc Address ℕ}
    {difficultyIndex : Assoc U256 ℕ} {block : Block T} {txPayload segment segment' record : Bytes} :
    (encodeBlock crates input addressIndex difficultyIndex (block, txPayload)).run segment =
        .ok (record, segment') ↔
      ∃ txSegmentOffset fields, Appended crates txPayload segment txSegmentOffset segment' ∧
        RecordFields input addressIndex difficultyIndex block fields ∧
        record = recordHead block ++
          (block.flags &&& ~~~(flagHasTransactions ||| flagTxCompressed) |||
            payloadFlags txPayload) :: fields.toBytes input block txSegmentOffset := by
  simp only [encodeBlock, StateT.run_bind, Except.bind_eq_ok, Prod.exists, appendTxPayload_eq_ok,
    run_liftM_eq_ok, encodeBlockRecord_eq_ok]
  constructor
  · rintro ⟨_, txSegmentOffset, _, ⟨rfl, happended⟩, ⟨fields, hfields, rfl⟩, rfl⟩
    exact ⟨txSegmentOffset, fields, happended, hfields, rfl⟩
  · rintro ⟨txSegmentOffset, fields, happended, hfields, rfl⟩
    exact ⟨_, txSegmentOffset, segment', ⟨rfl, happended⟩, ⟨fields, hfields, rfl⟩, rfl⟩

/-! ## Packets -/

/-- A run of the encoder: the payloads and the records of the blocks, and the segment with the
payloads. -/
structure IsEncoding (crates : Crates T) (input : Packet T) (b : Bytes) (txPayloads : List Bytes)
    (records : List Bytes) (txSegment : Bytes) : Prop where
  valid : ValidInput input
  payloads : ∃ seenTxs, Rounds (encodeTxPayload crates (Assoc.indexOf input.addresses)
    (Assoc.indexOf input.gasPrices) (senderNonceIndex input)) [] input.blocks txPayloads seenTxs
  rounds : Rounds (encodeBlock crates input (Assoc.indexOf input.addresses)
    (Assoc.indexOf input.difficulties)) [] (input.blocks.zip txPayloads) records txSegment
  assembled : assemblePacket input (choosePrefixSize records) records.length
    (packBlockBody records (choosePrefixSize records)).2
    (packBlockBody records (choosePrefixSize records)).1 txSegment = .ok b

theorem encodePacket_iff {input : Packet T} {b : Bytes} :
    encodePacket crates input = .ok b ↔
      ∃ txPayloads records txSegment, IsEncoding crates input b txPayloads records txSegment := by
  rw [encodePacket_eq_ok, validateInput_eq_ok]
  constructor
  · rintro ⟨hvalid, records, txSegment, hblocks, hassembled⟩
    simp only [encodeBlocks, Except.bind_eq_ok, Prod.exists] at hblocks
    obtain ⟨txPayloads, seenTxs, hpayloads, hrecords⟩ := hblocks
    exact ⟨txPayloads, records, txSegment, hvalid, ⟨seenTxs, mapM_run_eq_ok.mp hpayloads⟩,
      mapM_run_eq_ok.mp hrecords, hassembled⟩
  · rintro ⟨txPayloads, records, txSegment, hvalid, ⟨seenTxs, hpayloads⟩, hrecords, hassembled⟩
    refine ⟨hvalid, records, txSegment, ?_, hassembled⟩
    rw [encodeBlocks, mapM_run_eq_ok.mpr hpayloads, Except.ok_bind]
    exact mapM_run_eq_ok.mpr hrecords

namespace IsEncoding

variable {input : Packet T} {b : Bytes} {txPayloads records : List Bytes} {txSegment : Bytes}
  (h : IsEncoding crates input b txPayloads records txSegment)

include h

theorem length_payloads : txPayloads.length = input.blocks.length := by
  obtain ⟨_, hrounds⟩ := h.payloads
  exact hrounds.length_eq

theorem length_records : records.length = input.blocks.length := by
  rw [h.rounds.length_eq, List.length_zip, h.length_payloads, Nat.min_self]

/-- Where the blocks stand. -/
theorem blockArea : ∃ offsets, BlockArea b (choosePrefixSize records) records txSegment offsets :=
  ⟨_, blockArea_of_assemblePacket (choosePrefixSize_mem records) h.assembled⟩

/-- A record starts with the head of its block. -/
theorem exists_block {i : ℕ} {record : Bytes} (hrecord : records[i]? = some record) :
    ∃ block rest, input.blocks[i]? = some block ∧ record = recordHead block ++ rest ∧ rest ≠ [] := by
  obtain ⟨⟨block, txPayload⟩, segment, segment', hentry, hround⟩ := h.rounds.exists_round hrecord
  obtain ⟨_, fields, -, -, rfl⟩ := encodeBlock_eq_ok.mp hround
  refine ⟨block, _, ?_, rfl, List.cons_ne_nil _ _⟩
  exact (List.getElem?_zip_eq_some.mp hentry).1

end IsEncoding

end Cfxpack
