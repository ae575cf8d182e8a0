import CfxMinimalExecution.Cfxpack.Encode

/-!
# The decoder

## Main definitions

* `decodeBlockRecords`, `decodeBlockRecord`: the records of the blocks
* `assignEpochFromPivots`: the epochs of the blocks
* `decodeTxPayload`: the transactions, rewards and unlock events of a block
* `decodePacketExt`: the decoder
* `blockFlagSites`: the places of the flags
-/

namespace Cfxpack

variable {T : PrimitiveTypes} (crates : Crates T)

/-! ## Tables -/

/-- The chunks of `n` elements of a list whose length is a multiple of `n`. -/
def chunksExact {α : Type} (n : ℕ) (data : List α) : List (List α) :=
  (List.range (data.length / n)).map fun i => (data.drop (i * n)).take n

def decodeAddresses (data : Bytes) : Result (List Address) := do
  ensure (data.length % 20 = 0) "address table has trailing bytes"
  pure ((chunksExact 20 data).map Address.fromSlice)

def decodePosEntries (data : Bytes) : Result (List PosLookupEntry) := do
  ensure (data.length % 34 = 0) "PoS table has trailing bytes"
  pure ((chunksExact 34 data).map fun chunk =>
    { hash := H256.fromSlice (chunk.take 32)
      heightOffset := UInt16.ofNat (leNat (chunk.drop 32)) })

def trimZeroPadding (data : Bytes) (alignment : ℕ) : Result Bytes := do
  let trailing := data.length % alignment
  if trailing = 0 then pure data
  else do
    ensure ((data.drop (data.length - trailing)).all (· = 0)) "non-zero table padding"
    pure (data.take (data.length - trailing))

def decodeU256Table (data : Bytes) : Result (List U256) := do
  let data ← trimZeroPadding data 32
  ensure (data.length % 32 = 0) "U256 table has trailing bytes"
  pure ((chunksExact 32 data).map U256.fromBigEndian)

/-- The rounds of `decode_sender_base_nonces`. Every round reads at least a byte. -/
def senderBaseNonceRounds (data : Bytes) : ℕ → Cursor (List SenderBaseNonce)
  | 0 => pure []
  | rounds + 1 => do
    let offset ← get
    if offset < data.length then do
      let senderIndex ← readUleb128 data
      let baseNonce ← readUleb128 data
      let out ← senderBaseNonceRounds data rounds
      pure (⟨senderIndex, baseNonce⟩ :: out)
    else pure []

def decodeSenderBaseNonces (data : Bytes) : Result (List SenderBaseNonce) :=
  (senderBaseNonceRounds data data.length).run' 0

def tableGet {α : Type} (table : List α) (index : ℕ) : Result α :=
  okOr s!"lookup table index {index} out of bounds" table[index]?

/-! ## Offsets -/

def readOffsets (data : Bytes) : Result (List ℕ) :=
  (List.range headerOffsetCount).mapM fun i => do
    let offset ← readU32Le data (headerFixedLen + i * 4)
    pure offset.toNat

def ensureOffsets (offsets : List ℕ) (len : ℕ) : Result Unit := do
  let _ ← offsets.foldlM (fun previous offset => do
    ensure (previous ≤ offset) "offset table is not monotonic"
    ensure (offset ≤ len) "offset exceeds packet length"
    pure offset) headerLen

/-! ## Records -/

structure DecodedRecord where
  bytes : Bytes
  txOffsetUnits : UInt64

/-- The bytes of a record: its part of the prefix area and, where the bitmap says so, what
overflowed. -/
def reassembleRecord (profile : Profile) (data bitmap : Bytes)
    (blockBodyOffset txSegmentOffset prefixSize i : ℕ) : Cursor Bytes := do
  let bytes ← slice data (blockBodyOffset + i * prefixSize) (blockBodyOffset + (i + 1) * prefixSize)
  if (← indexAt bitmap (i / 8)) &&& (1 : UInt8) <<< UInt8.ofNat (i % 8) ≠ 0 then do
    let len ← readUleb128 data
    let overflowOffset ← get
    let stop ← profile.addUsize overflowOffset len.toNat
    ensure (stop ≤ txSegmentOffset) "block overflow exceeds tx segment"
    let rest ← slice data overflowOffset stop
    set stop
    pure (bytes ++ rest)
  else pure bytes

def peekTxOffsetUnits (record : Bytes) : Result UInt64 :=
  (do
    Cursor.times (readUleb128 record) 3
    Cursor.times (readQc5e record) 3
    Cursor.times (readUleb128 record) 3
    readUleb128 record : Cursor UInt64).run' 45

def decodeRecord (profile : Profile) (data bitmap : Bytes)
    (blockBodyOffset txSegmentOffset prefixSize i : ℕ) : Cursor DecodedRecord := do
  let bytes ← reassembleRecord profile data bitmap blockBodyOffset txSegmentOffset prefixSize i
  let txOffsetUnits ← peekTxOffsetUnits bytes
  pure { bytes, txOffsetUnits }

/-- A product of two positions, when it is one. -/
def checkedMul (a b : ℕ) : Option ℕ := if a * b < UInt64.size then some (a * b) else none

def decodeBlockRecords (profile : Profile) (data : Bytes)
    (blockHeaderOffset blockBodyOffset txSegmentOffset prefixSize : ℕ) :
    Result (List DecodedRecord) := do
  let blockCount := (← readU32Le data blockHeaderOffset).toNat
  let bitmapLen := (blockCount + 7) / 8
  let bitmap ← slice data (blockHeaderOffset + 4) (blockHeaderOffset + 4 + bitmapLen)
  let prefixTotal ← okOr "block prefix size overflow" (checkedMul blockCount prefixSize)
  ensure (blockBodyOffset + prefixTotal ≤ txSegmentOffset) "block prefix area exceeds tx segment"
  ((List.range blockCount).mapM
    (decodeRecord profile data bitmap blockBodyOffset txSegmentOffset prefixSize)).run'
      (blockBodyOffset + prefixTotal)

def h256Prefix (bytes : Bytes) : H256 :=
  H256.fromSlice (bytes ++ List.replicate (32 - bytes.length) 0)

def decodeBlockRecord (profile : Profile) (record : Bytes) (index : ℕ)
    (minTimestamp minHeight minPosHeight posReferenceEnableHeight : UInt64)
    (addresses : List Address) (difficulties : List U256) : Result (Block T) := do
  ensure (45 ≤ record.length) "block record too short"
  let hash := H256.fromSlice (← slice record 0 32)
  let deferredStateRoot := h256Prefix (← slice record 32 36)
  let deferredReceiptsRoot := h256Prefix (← slice record 36 40)
  let deferredLogsBloomHash := h256Prefix (← slice record 40 44)
  let flags ← indexAt record 44
  (do
    let author ← tableGet addresses (← readUleb128 record).toNat
    let timestamp ← profile.addU64 minTimestamp (← readUleb128 record)
    let difficulty ← tableGet difficulties (← readUleb128 record).toNat
    let gasLimit := (← readQc5e record).gasLimit
    let basePriceCore := (← readQc5e record).basePrice false
    let basePriceEspace := (← readQc5e record).basePrice true
    let height ← profile.addU64 minHeight (← readUleb128 record)
    let blame ← readUleb128 record
    let finalizedEpoch ← readUleb128 record
    let _ ← readUleb128 record
    let baseReward ← readQc8 record
    let posView ← if posReferenceEnableHeight ≤ height then do
        let posView ← profile.addU64 minPosHeight (← readUleb128 record)
        pure (some posView)
      else pure none
    pure
      { epoch := 0, index, hash, deferredStateRoot, deferredReceiptsRoot, deferredLogsBloomHash,
        flags, author, timestamp, difficulty, gasLimit, basePriceCore, basePriceEspace, height,
        blame, finalizedEpoch, baseReward, transactions := [], transactionRefs := [],
        posRewards := [], unlockEvents := [], posView } : Cursor (Block T)).run' 45

/-- Every block takes the height of the pivot that ends its run. -/
def assignEpochFromPivots (blocks : List (Block T)) : Result (List (Block T)) := do
  let epochGroups := List.groups (·.has flagPivot) blocks
  ensure (epochGroups.2 = []) "packet block list has no pivot for final epoch group"
  pure (epochGroups.1.flatMap fun group =>
    (group.1 ++ [group.2]).map fun block => { block with epoch := group.2.height })

/-! ## Transactions -/

/-- `val_at`: an item of a list, read by `as`. -/
def valAt {α : Type} (rlp : Rlp T) (as : Bytes → Except String α) (item : Bytes) (i : ℕ) :
    Result α := do
  let x ← passOn (rlp.itemAt item i)
  passOn (as x)

def decodeU256Bytes (bytes : Bytes) : Result U256 := do
  ensure (bytes.length ≤ 32) "U256 byte value exceeds 32 bytes"
  pure (U256.fromBigEndian bytes)

def optionalList {α : Type} (rlp : Rlp T) (as : Bytes → Except String (List α)) (item : Bytes)
    (i : ℕ) : Result (List α) := do
  if i < (← passOn (rlp.itemCount item)) then valAt rlp as item i else pure []

def decodePosRewardAccount (rlp : Rlp T) (rewards : Bytes) (j : ℕ) : Result PosRewardAccount := do
  let r ← passOn (rlp.itemAt rewards j)
  let addrBytes ← valAt rlp rlp.asBytes r 0
  ensure (addrBytes.length = 20) "pos reward address not 20 bytes"
  let idBytes ← valAt rlp rlp.asBytes r 1
  ensure (idBytes.length = 32) "pos reward identifier not 32 bytes"
  let reward ← decodeU256Bytes (← valAt rlp rlp.asBytes r 2)
  pure ⟨Address.fromSlice addrBytes, H256.fromSlice idBytes, reward⟩

def decodePosReward (rlp : Rlp T) (item : Bytes) : Result PosRewardEntry := do
  let rewards ← passOn (rlp.itemAt item 1)
  let count ← passOn (rlp.itemCount rewards)
  let accountRewards ← (List.range count).mapM (decodePosRewardAccount rlp rewards)
  let execBytes ← valAt rlp rlp.asBytes item 2
  ensure (execBytes.length = 32) "execution_epoch_hash not 32 bytes"
  pure ⟨accountRewards, H256.fromSlice execBytes⟩

def decodeUnlockEvent (rlp : Rlp T) (item : Bytes) : Result UnlockEntry := do
  let idBytes ← valAt rlp rlp.asBytes item 1
  ensure (idBytes.length = 32) "unlock identifier not 32 bytes"
  let unlocked ← valAt rlp rlp.asU64 item 2
  pure ⟨H256.fromSlice idBytes, unlocked⟩

def decodePrice (rlp : Rlp T) (item : Bytes) (gasPrices : List U256) : Result U256 := do
  let mode ← valAt rlp rlp.asU8 item 0
  if mode = 0 then tableGet gasPrices (← valAt rlp rlp.asU64 item 1).toNat
  else if mode = 1 then decodeU256Bytes (← valAt rlp rlp.asBytes item 1)
  else throw (.error s!"invalid gas price mode {mode}")

def decodeAction (rlp : Rlp T) (item : Bytes) (addresses : List Address) : Result Action := do
  let mode ← valAt rlp rlp.asU8 item 0
  if mode = 0 then pure .create
  else if mode = 1 then do
    let address ← tableGet addresses (← valAt rlp rlp.asU64 item 1).toNat
    pure (.call address)
  else throw (.error s!"invalid action mode {mode}")

/-- The fields that the two spaces decode alike. -/
structure TxItem where
  nonce : U256
  gasPrice : U256
  priorityPrice : U256
  gas : U256
  action : Action
  value : U256

def decodeNativeTx (item : Bytes) (typeId : UInt64) (sender : Address) (blockEpoch : UInt64)
    (fields : TxItem) : Result (SignedTransaction T) := do
  let rlp := crates.rlp
  let storageLimit ← valAt rlp rlp.asU64 item 9
  let epochDelta := zigzagDecode (← valAt rlp rlp.asU64 item 10)
  let data ← valAt rlp rlp.asBytes item 11
  let accessList ← optionalList rlp rlp.asAccessList item 12
  let epochHeight := (blockEpoch.toInt64 + epochDelta).toUInt64
  let { nonce, gasPrice, priorityPrice, gas, action, value } := fields
  let tx ←
    if typeId = 0 then pure (.cip155
      { nonce, gasPrice, gas, action, value, storageLimit, epochHeight, chainId := 0, data })
    else if typeId = 1 then pure (.cip2930
      { nonce, gasPrice, gas, action, value, storageLimit, epochHeight, chainId := 0, data,
        accessList })
    else if typeId = 2 then pure (.cip1559
      { nonce, maxPriorityFeePerGas := priorityPrice, maxFeePerGas := gasPrice, gas, action, value,
        storageLimit, epochHeight, chainId := 0, data, accessList })
    else throw (.error s!"unsupported native tx type {typeId}")
  pure (crates.primitives.fakeSignRpc (.native tx) sender .native)

def decodeEthereumTx (item : Bytes) (typeId : UInt64) (sender : Address) (fields : TxItem) :
    Result (SignedTransaction T) := do
  let rlp := crates.rlp
  let data ← valAt rlp rlp.asBytes item 9
  let accessList ← optionalList rlp rlp.asAccessList item 10
  let { nonce, gasPrice, priorityPrice, gas, action, value } := fields
  let tx ←
    if typeId = 0 then pure (.eip155
      { nonce, gasPrice, gas, action, value, chainId := none, data })
    else if typeId = 1 then pure (.eip2930
      { chainId := 0, nonce, gasPrice, gas, action, value, data, accessList })
    else if typeId = 2 then pure (.eip1559
      { chainId := 0, nonce, maxPriorityFeePerGas := priorityPrice, maxFeePerGas := gasPrice, gas,
        action, value, data, accessList })
    else if typeId = 4 then do
      let authorizationList ← optionalList rlp rlp.asAuthorizationList item 11
      let destination := match action with
        | .call address => address
        | .create => Address.zero
      pure (.eip7702
        { chainId := 0, nonce, maxPriorityFeePerGas := priorityPrice, maxFeePerGas := gasPrice, gas,
          destination, value, data, accessList, authorizationList })
    else throw (.error s!"unsupported ethereum tx type {typeId}")
  pure (crates.primitives.fakeSignRpc (.ethereum tx) sender .ethereum)

def decodeTxItem (item : Bytes) (blockEpoch : UInt64) (addresses : List Address)
    (gasPrices : List U256) (senderBaseNonces : List SenderBaseNonce) :
    Result (SignedTransaction T) := do
  let rlp := crates.rlp
  let spaceMarker ← valAt rlp rlp.asU8 item 0
  let typeId ← valAt rlp rlp.asU64 item 1
  let senderIndex := (← valAt rlp rlp.asU64 item 2).toNat
  let sender ← tableGet addresses senderIndex
  let baseNonce :=
    ((senderBaseNonces.find? (·.senderIndex.toNat = senderIndex)).map (·.baseNonce)).getD 0
  let nonce ← crates.addU64 baseNonce (← valAt rlp rlp.asU64 item 3)
  let gasPrice ← decodePrice rlp (← passOn (rlp.itemAt item 4)) gasPrices
  let priorityPrice ← decodePrice rlp (← passOn (rlp.itemAt item 5)) gasPrices
  let gas ← valAt rlp rlp.asU64 item 6
  let action ← decodeAction rlp (← passOn (rlp.itemAt item 7)) addresses
  let value ← decodeU256Bytes (← valAt rlp rlp.asBytes item 8)
  let fields : TxItem :=
    { nonce := BitVec.ofNat 256 nonce.toNat, gasPrice, priorityPrice,
      gas := BitVec.ofNat 256 gas.toNat, action, value }
  if spaceMarker = 0 then decodeNativeTx crates item typeId sender blockEpoch fields
  else if spaceMarker = 2 then decodeEthereumTx crates item typeId sender fields
  else throw (.error s!"unsupported tx space marker {spaceMarker}")

/-- What an item of a payload stands for. -/
inductive PayloadItem (T : PrimitiveTypes) where
  | transaction (tx : SignedTransaction T) (duplicateRef : Option (ℕ × ℕ))
  | posReward (entry : PosRewardEntry)
  | unlockEvent (entry : UnlockEntry)

/-- One round of the loop over the items of a payload. -/
def decodePayloadItem (decoded : Bytes) (blockEpoch : UInt64) (addresses : List Address)
    (gasPrices : List U256) (senderBaseNonces : List SenderBaseNonce)
    (previousBlocks : List (List (SignedTransaction T))) (i : ℕ) : Result (PayloadItem T) := do
  let rlp := crates.rlp
  let item ← passOn (rlp.itemAt decoded i)
  let marker ← valAt rlp rlp.asU8 item 0
  if marker = 1 then do
    let blockIndex := (← valAt rlp rlp.asU64 item 1).toNat
    let txIndex := (← valAt rlp rlp.asU64 item 2).toNat
    let tx ← okOr "duplicate tx reference out of range"
      (previousBlocks[blockIndex]?.bind (·[txIndex]?))
    pure (.transaction tx (some (blockIndex, txIndex)))
  else if marker = 3 then do
    let entry ← decodePosReward rlp item
    pure (.posReward entry)
  else if marker = 4 then do
    let entry ← decodeUnlockEvent rlp item
    pure (.unlockEvent entry)
  else do
    let tx ← decodeTxItem crates item blockEpoch addresses gasPrices senderBaseNonces
    pure (.transaction tx none)

/-- The payload of a block, decompressed: the reading that the decoder and the verifier share. -/
def readTxPayload (data : Bytes) (txSegmentOffset txOffsetUnits : ℕ) (flags : UInt8) :
    Result Bytes := do
  let absolute ← crates.addUsize txSegmentOffset (← crates.mulUsize txOffsetUnits 4)
  ensure (absolute < data.length) "tx payload offset out of bounds"
  let (payloadLen, offset) ← (readUleb128 data).run absolute
  let stop ← crates.addUsize offset payloadLen.toNat
  ensure (stop ≤ data.length) "tx payload exceeds packet"
  let payload ← slice data offset stop
  if flags &&& flagTxCompressed ≠ 0 then
    context "snappy-decompress tx payload" (passOn (crates.snap.decompressVec payload))
  else pure payload

def decodeTxPayload (data : Bytes) (txSegmentOffset : ℕ) (txOffsetUnits : UInt64) (flags : UInt8)
    (blockEpoch : UInt64) (addresses : List Address) (gasPrices : List U256)
    (senderBaseNonces : List SenderBaseNonce)
    (previousBlocks : List (List (SignedTransaction T))) : Result (List (PayloadItem T)) := do
  let decoded ← readTxPayload crates data txSegmentOffset txOffsetUnits.toNat flags
  let count ← passOn (crates.rlp.itemCount decoded)
  (List.range count).mapM
    (decodePayloadItem crates decoded blockEpoch addresses gasPrices senderBaseNonces previousBlocks)

/-- The items of a payload, each in its list. -/
def Block.withPayload (block : Block T) (items : List (PayloadItem T)) : Block T :=
  { block with
    transactions := items.filterMap fun
      | .transaction tx _ => some tx
      | _ => none
    transactionRefs := items.filterMap fun
      | .transaction _ duplicateRef => some duplicateRef
      | _ => none
    posRewards := items.filterMap fun
      | .posReward entry => some entry
      | _ => none
    unlockEvents := items.filterMap fun
      | .unlockEvent entry => some entry
      | _ => none }

/-- One round of the loop over the blocks; the state is the transactions of the earlier ones. -/
def decodeTransactions (data : Bytes) (txSegmentOffset : ℕ) (addresses : List Address)
    (gasPrices : List U256) (senderBaseNonces : List SenderBaseNonce)
    (entry : DecodedRecord × Block T) :
    StateT (List (List (SignedTransaction T))) Result (Block T) := do
  let (record, block) := entry
  let decodedTxs ← get
  let block ← if block.has flagHasTransactions then do
      let items ← decodeTxPayload crates data txSegmentOffset record.txOffsetUnits block.flags
        block.epoch addresses gasPrices senderBaseNonces decodedTxs
      pure (block.withPayload items)
    else pure block
  set (decodedTxs ++ [block.transactions])
  pure block

/-! ## The packet -/

def decodePacketExt (data : Bytes) (posReferenceEnableHeight : UInt64) : Result (Packet T) := do
  ensure (headerLen ≤ data.length) "packet shorter than header"
  let prevLastHash := H256.fromSlice (← slice data 0 32)
  let prevLastDeferredStateRoot := H256.fromSlice (← slice data 32 64)
  let firstBlockNumber ← readU64Le data 64
  let minTimestamp ← readU64Le data 72
  let minHeight ← readU64Le data 80
  let minPosHeight := (← readU32Le data 88).toUInt64
  let blockPrefixSize := (← indexAt data 92).toNat
  ensure (blockPrefixSize ∈ [64, 72, 80, 88, 96]) "invalid block_prefix_size"
  let offsets ← readOffsets data
  ensureOffsets offsets data.length
  let offset := fun i => offsets.getD i 0
  let addresses ← decodeAddresses (← slice data (offset 0) (offset 1))
  let posEntries ← decodePosEntries (← slice data (offset 1) (offset 2))
  let difficulties ← decodeU256Table (← slice data (offset 2) (offset 3))
  let senderBaseNonces ← decodeSenderBaseNonces (← slice data (offset 3) (offset 4))
  let gasPrices ← decodeU256Table (← slice data (offset 4) (offset 5))
  let blockRecords ← decodeBlockRecords crates.toProfile data (offset 5) (offset 6) (offset 7)
    blockPrefixSize
  let blocks ← blockRecords.zipIdx.mapM fun entry =>
    decodeBlockRecord crates.toProfile entry.1.bytes entry.2 minTimestamp minHeight minPosHeight
      posReferenceEnableHeight addresses difficulties
  let blocks ← assignEpochFromPivots blocks
  let (blocks, _) ← ((blockRecords.zip blocks).mapM (decodeTransactions crates data (offset 7)
    addresses gasPrices senderBaseNonces)).run []
  pure
    { prevLastHash, prevLastDeferredStateRoot, firstBlockNumber, minTimestamp, minHeight,
      minPosHeight, addresses, posEntries, difficulties, senderBaseNonces, gasPrices, blocks }

def decodePacket (data : Bytes) : Result (Packet T) :=
  decodePacketExt crates data (UInt64.ofNat (UInt64.size - 1))

/-- The absolute offset of the flags of every block, and its hash. -/
def blockFlagSites (data : Bytes) : Result (List (ℕ × H256)) := do
  ensure (headerLen ≤ data.length) "packet shorter than header"
  let blockPrefixSize := (← indexAt data 92).toNat
  ensure (blockPrefixSize ∈ [64, 72, 80, 88, 96]) "invalid block_prefix_size"
  let offsets ← readOffsets data
  ensureOffsets offsets data.length
  let blockHeaderOffset := offsets.getD 5 0
  let blockBodyOffset := offsets.getD 6 0
  let txSegmentOffset := offsets.getD 7 0
  let blockCount := (← readU32Le data blockHeaderOffset).toNat
  let prefixTotal ← okOr "block prefix size overflow" (checkedMul blockCount blockPrefixSize)
  ensure (blockBodyOffset + prefixTotal ≤ txSegmentOffset) "block prefix area exceeds tx segment"
  (List.range blockCount).mapM fun i => do
    let record := blockBodyOffset + i * blockPrefixSize
    let hash ← slice data record (record + 32)
    pure (record + 44, H256.fromSlice hash)

end Cfxpack
