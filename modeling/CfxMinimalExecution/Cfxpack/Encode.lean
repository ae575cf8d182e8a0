import CfxMinimalExecution.Cfxpack.Types
import CfxMinimalExecution.Library.Groups

/-!
# The encoder

## Main definitions

* `validateInput`: the checks of the block list
* `encodeTxPayload`: the transactions, rewards and unlock events of a block
* `encodeBlockRecord`: the record of a block
* `packBlockBody`, `assemblePacket`: the layout
* `encodePacket`: the encoder
-/

namespace Cfxpack

variable {T : PrimitiveTypes} (crates : Crates T)

def checkedSub (a b : UInt64) : Option UInt64 := if b ≤ a then some (a - b) else none

def saturatingSub (a b : UInt64) : UInt64 := if b ≤ a then a - b else 0

def lowU64 (value : U256) : UInt64 := UInt64.ofNat value.toNat

/-! ## The checks of the input -/

/-- The checks of a block, of which the pivot has the epoch as its height. -/
def validateBlock (pivotHeight : UInt64) (expectedIndex : ℕ) (block : Block T) : Result ℕ := do
  ensure (block.index = expectedIndex) "block index is not sequential"
  ensure (block.flags &&& 0b10000000 = 0) "reserved block flag bit (bit 7) must be zero"
  ensure (block.epoch = pivotHeight) "block epoch must match its pivot block height"
  pure (expectedIndex + 1)

/-- The checks of the blocks up to a pivot. -/
def validateGroup (expectedIndex : ℕ) (group : List (Block T) × Block T) : Result ℕ :=
  (group.1 ++ [group.2]).foldlM (validateBlock group.2.height) expectedIndex

/-- The loop visits the blocks in runs that end at a pivot. -/
def validateInput (input : Packet T) : Result Unit :=
  match input.blocks with
  | [] => throw (.error "packet has no blocks")
  | first :: _ => do
    let bound ← crates.addU64 first.epoch packetEpochs
    ensure (first.epoch ≤ bound) "invalid epoch range"
    let epochGroups := List.groups (·.has flagPivot) input.blocks
    let _ ← epochGroups.1.foldlM validateGroup 0
    ensure (epochGroups.2 = []) "packet input epoch group has no pivot block"

/-! ## Transactions -/

/-- The calls that append a price. -/
def appendPrice (value : U256) (gasPriceIndex : Assoc U256 ℕ) : RlpStream T :=
  match gasPriceIndex.get value with
  | some index => [.beginList 2, .u8 0, .u64 (UInt64.ofNat index)]
  | none => [.beginList 2, .u8 1, .bytes (u256ToBe value)]

def appendAction (action : Action) (addressIndex : Assoc Address ℕ) : Result (RlpStream T) :=
  match action with
  | .create => pure [.beginList 1, .u8 0]
  | .call address => do
    let index ← okOr "missing action address in address table" (addressIndex.get address)
    pure [.beginList 2, .u8 1, .u64 (UInt64.ofNat index)]

def appendTx (blockEpoch : UInt64) (tx : SignedTransaction T) (addressIndex : Assoc Address ℕ)
    (gasPriceIndex : Assoc U256 ℕ) (senderNonceIndex : Assoc ℕ UInt64) :
    Result (RlpStream T) := do
  let senderIndex ← okOr "missing sender in address table" (addressIndex.get tx.sender)
  let fields := crates.primitives.fields tx.unsigned
  let nonce := lowU64 fields.nonce
  let encodedNonce := ((senderNonceIndex.get senderIndex).map (saturatingSub nonce)).getD nonce
  let action ← appendAction fields.action addressIndex
  let prices := appendPrice fields.gasPrice gasPriceIndex ++
    appendPrice fields.maxPriorityGasPrice gasPriceIndex
  match tx.unsigned with
  | .native native =>
    -- the sign of the offset must survive
    let epochDelta :=
      (crates.primitives.epochHeight native).toInt64 - blockEpoch.toInt64
    pure ([.beginList (if fields.accessList.isSome then 13 else 12), .u8 0,
        .u64 fields.typeId.toUInt64, .u64 (UInt64.ofNat senderIndex), .u64 encodedNonce] ++
      prices ++ [.u64 (lowU64 fields.gas)] ++ action ++
      [.bytes (u256ToBe fields.value), .u64 (crates.primitives.storageLimit native),
        .u64 (zigzagEncode epochDelta), .bytes fields.data] ++
      (fields.accessList.map .accessList).toList)
  | .ethereum _ =>
    pure ([.beginList (10 + (if fields.accessList.isSome then 1 else 0) +
          (if fields.authorizationList.isSome then 1 else 0)), .u8 2,
        .u64 fields.typeId.toUInt64, .u64 (UInt64.ofNat senderIndex), .u64 encodedNonce] ++
      prices ++ [.u64 (lowU64 fields.gas)] ++ action ++
      [.bytes (u256ToBe fields.value), .bytes fields.data] ++
      (fields.accessList.map .accessList).toList ++
      (fields.authorizationList.map .authorizationList).toList)

def appendPosReward (entry : PosRewardEntry) : RlpStream T :=
  [.beginList 3, .u8 3, .beginList entry.accountRewards.length] ++
    entry.accountRewards.flatMap (fun r =>
      [.beginList 3, .bytes r.address.asBytes, .bytes r.posIdentifier.asBytes,
        .bytes (u256ToBe r.reward)]) ++
    [.bytes entry.executionEpochHash.asBytes]

def appendUnlockEvent (entry : UnlockEntry) : RlpStream T :=
  [.beginList 3, .u8 4, .bytes entry.identifier.asBytes, .u64 entry.unlocked]

/-- The transactions seen so far, each with its block and its position there. -/
abbrev SeenTxs := Assoc H256 (ℕ × ℕ)

/-- One round of the loop over the transactions of a block. -/
def appendTransaction (block : Block T) (encodedRefs : Option (List (Option (ℕ × ℕ))))
    (addressIndex : Assoc Address ℕ) (gasPriceIndex : Assoc U256 ℕ)
    (senderNonceIndex : Assoc ℕ UInt64) (entry : SignedTransaction T × ℕ) :
    StateT SeenTxs Result (RlpStream T) := do
  let (tx, txIndex) := entry
  let seenTxs ← get
  let duplicateRef ← match encodedRefs with
    | some refs => indexAt refs txIndex
    | none => pure (seenTxs.get (crates.primitives.hash tx))
  match duplicateRef with
  | some (blockIndex, firstTxIndex) =>
    pure [.beginList 3, .u8 1, .u64 (UInt64.ofNat blockIndex), .u64 (UInt64.ofNat firstTxIndex)]
  | none => do
    if encodedRefs.isNone then
      set (seenTxs.insert (crates.primitives.hash tx) (block.index, txIndex))
    appendTx crates block.epoch tx addressIndex gasPriceIndex senderNonceIndex

/-- The references of a block, when it has one for each transaction. -/
def Block.encodedRefs (block : Block T) : Option (List (Option (ℕ × ℕ))) :=
  if block.transactionRefs.length = block.transactions.length then some block.transactionRefs
  else none

def encodeTxPayload (addressIndex : Assoc Address ℕ) (gasPriceIndex : Assoc U256 ℕ)
    (senderNonceIndex : Assoc ℕ UInt64) (block : Block T) : StateT SeenTxs Result Bytes := do
  if block.transactions = [] ∧ block.posRewards = [] ∧ block.unlockEvents = [] then pure []
  else do
    let transactions ← block.transactions.zipIdx.mapM
      (appendTransaction crates block block.encodedRefs addressIndex gasPriceIndex senderNonceIndex)
    pure (crates.rlp.out (.beginList (block.transactions.length + block.posRewards.length +
        block.unlockEvents.length) :: transactions.flatten ++
      block.posRewards.flatMap appendPosReward ++ block.unlockEvents.flatMap appendUnlockEvent))

/-! ## Records -/

def encodeBlockRecord (input : Packet T) (addressIndex : Assoc Address ℕ)
    (difficultyIndex : Assoc U256 ℕ) (block : Block T) (flags : UInt8)
    (txSegmentOffset : UInt64) : Result Bytes := do
  let out := block.hash.asBytes ++ block.deferredStateRoot.asBytes.take 4 ++
    block.deferredReceiptsRoot.asBytes.take 4 ++ block.deferredLogsBloomHash.asBytes.take 4 ++
    [flags]
  let author ← okOr "missing author in address table" (addressIndex.get block.author)
  let out := putUleb128 out (UInt64.ofNat author)
  let timestamp ← okOr "timestamp below min_timestamp"
    (checkedSub block.timestamp input.minTimestamp)
  let out := putUleb128 out timestamp
  let difficulty ← okOr "missing difficulty in lookup table" (difficultyIndex.get block.difficulty)
  let out := putUleb128 out (UInt64.ofNat difficulty)
  let out ← putQc5e out block.gasLimit (qc5eGasLimitEnum block.gasLimit)
  let out ← putQc5e out block.basePriceCore (qc5eBasePriceEnum block.basePriceCore false)
  let out ← putQc5e out block.basePriceEspace (qc5eBasePriceEnum block.basePriceEspace true)
  let height ← okOr "height below min_height" (checkedSub block.height input.minHeight)
  let out := putUleb128 out height
  let out := putUleb128 out block.blame
  let out := putUleb128 out block.finalizedEpoch
  let out := putUleb128 out txSegmentOffset
  let out ← putQc8 out block.baseReward
  match block.posView with
  | some posView => pure (putUleb128 out (saturatingSub posView input.minPosHeight))
  | none => pure out

/-- Append a payload to the transaction segment. The flags and the offset for the record. -/
def appendTxPayload (flags : UInt8) (txPayload : Bytes) :
    StateT Bytes Result (UInt8 × UInt64) := do
  if txPayload = [] then pure (flags, 0)
  else do
    let flags := flags ||| flagHasTransactions
    let txSegment := alignTo (← get) 4
    let offset := txSegment.length / 4
    let (flags, payload) ← if 512 < txPayload.length then do
        let payload ← context "snappy-compress tx payload"
          (passOn (crates.snap.compressVec txPayload))
        pure (flags ||| flagTxCompressed, payload)
      else pure (flags, txPayload)
    set (putUleb128 txSegment (UInt64.ofNat payload.length) ++ payload)
    pure (flags, UInt64.ofNat offset)

def encodeBlock (input : Packet T) (addressIndex : Assoc Address ℕ)
    (difficultyIndex : Assoc U256 ℕ) (entry : Block T × Bytes) : StateT Bytes Result Bytes := do
  let (block, txPayload) := entry
  let flags := block.flags &&& ~~~(flagHasTransactions ||| flagTxCompressed)
  let (flags, txSegmentOffset) ← appendTxPayload crates flags txPayload
  encodeBlockRecord input addressIndex difficultyIndex block flags txSegmentOffset

/-- The records of the blocks, and the transaction segment. -/
def encodeBlocks (input : Packet T) (addressIndex : Assoc Address ℕ)
    (gasPriceIndex : Assoc U256 ℕ) (senderNonceIndex : Assoc ℕ UInt64)
    (difficultyIndex : Assoc U256 ℕ) : Result (List Bytes × Bytes) := do
  let (txPayloads, _) ← (input.blocks.mapM
    (encodeTxPayload crates addressIndex gasPriceIndex senderNonceIndex)).run []
  ((input.blocks.zip txPayloads).mapM (encodeBlock crates input addressIndex difficultyIndex)).run []

/-! ## The layout -/

/-- The smallest size in use that enough records fit into. The source compares the share of the
records that fit with 0.90 and 0.70 in floating point, which agrees with the comparison of integers
for every number of records that a packet can hold. -/
def choosePrefixSizeFrom (records : List Bytes) : ℕ → ℕ → ℕ
  | 0, n => n
  | rounds + 1, n =>
    let fit := (records.filter fun record => record.length ≤ n).length
    if n < 80 ∧ 10 * fit < 9 * records.length then choosePrefixSizeFrom records rounds (n + 8)
    else if n < 96 ∧ 80 ≤ n ∧ 10 * fit < 7 * records.length then
      choosePrefixSizeFrom records rounds (n + 8)
    else n

/-- Four rounds reach the largest size. -/
def choosePrefixSize (records : List Bytes) : ℕ := choosePrefixSizeFrom records 4 64

structure BlockBody where
  extensionBitmap : Bytes
  blockBody : Bytes
  overflow : Bytes

/-- One round of the loop over the records. -/
def packRecord (prefixSize : ℕ) (body : BlockBody) (entry : Bytes × ℕ) : BlockBody :=
  let (record, i) := entry
  let prefixLen := min record.length prefixSize
  { extensionBitmap :=
      if prefixSize < record.length then
        body.extensionBitmap.modify (i / 8) (· ||| (1 : UInt8) <<< UInt8.ofNat (i % 8))
      else body.extensionBitmap
    blockBody :=
      body.blockBody ++ record.take prefixLen ++ List.replicate (prefixSize - prefixLen) 0
    overflow :=
      if prefixSize < record.length then
        putUleb128 body.overflow (UInt64.ofNat (record.drop prefixSize).length) ++
          record.drop prefixSize
      else body.overflow }

/-- The body of the records, and the bitmap of those that overflow. -/
def packBlockBody (records : List Bytes) (prefixSize : ℕ) : Bytes × Bytes :=
  let body := records.zipIdx.foldl (packRecord prefixSize)
    ⟨List.replicate ((records.length + 7) / 8) 0, [], []⟩
  (body.blockBody ++ body.overflow, body.extensionBitmap)

/-- The header up to the offsets. -/
def fixedHeader (input : Packet T) (prefixSize : ℕ) : Bytes :=
  input.prevLastHash.asBytes ++ input.prevLastDeferredStateRoot.asBytes ++
    leBytes 8 input.firstBlockNumber.toNat ++ leBytes 8 input.minTimestamp.toNat ++
    leBytes 8 input.minHeight.toNat ++ leBytes 4 input.minPosHeight.toUInt32.toNat ++
    [UInt8.ofNat prefixSize]

/-- An offset of the table, as a word of 32 bits. -/
def putOffset (offset : ℕ) : Result Bytes :=
  if offset < UInt32.size then pure (leBytes 4 offset)
  else throw (.error "packet offset exceeds u32")

/-- The sections are appended to an empty header, which is written last. -/
def assemblePacket (input : Packet T) (prefixSize blockCount : ℕ)
    (extensionBitmap blockBody txSegment : Bytes) : Result Bytes := do
  let out := List.replicate headerLen 0
  let addressOffset := out.length
  let out := out ++ input.addresses.flatMap Address.asBytes
  let posOffset := out.length
  let out := out ++ input.posEntries.flatMap fun entry =>
    entry.hash.asBytes ++ leBytes 2 entry.heightOffset.toNat
  let difficultyOffset := out.length
  let out := out ++ input.difficulties.flatMap u256ToBe
  let senderOffset := out.length
  let out := out ++ input.senderBaseNonces.flatMap fun entry =>
    uleb128 entry.senderIndex ++ uleb128 entry.baseNonce
  let gasPriceOffset := out.length
  let out := alignTo (out ++ input.gasPrices.flatMap u256ToBe) 32
  let blockHeaderOffset := out.length
  let out := alignTo (putU32Le out (UInt32.ofNat blockCount) ++ extensionBitmap) 32
  let blockBodyOffset := out.length
  let out := alignTo (out ++ blockBody) 64
  let txSegmentOffset := out.length
  let out := out ++ txSegment
  let offsets := [addressOffset, posOffset, difficultyOffset, senderOffset, gasPriceOffset,
    blockHeaderOffset, blockBodyOffset, txSegmentOffset]
  ensure (offsets.length = headerOffsetCount) "internal offset count mismatch"
  let offsets ← offsets.mapM putOffset
  pure (fixedHeader input prefixSize ++ offsets.flatten ++ out.drop headerLen)

def encodePacket (input : Packet T) : Result Bytes := do
  validateInput crates input
  let addressIndex := Assoc.indexOf input.addresses
  let difficultyIndex := Assoc.indexOf input.difficulties
  let gasPriceIndex := Assoc.indexOf input.gasPrices
  let senderNonceIndex := Assoc.collect
    (input.senderBaseNonces.map fun x => (x.senderIndex.toNat, x.baseNonce))
  let (blockRecords, txSegment) ←
    encodeBlocks crates input addressIndex gasPriceIndex senderNonceIndex difficultyIndex
  let prefixSize := choosePrefixSize blockRecords
  let (blockBody, extensionBitmap) := packBlockBody blockRecords prefixSize
  assemblePacket input prefixSize blockRecords.length extensionBitmap blockBody txSegment

end Cfxpack
