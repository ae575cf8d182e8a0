import CfxMinimalExecution.Cfxpack.Decode

/-!
# The structural verifier

## Main definitions

* `countTransactions`: the walk over the records that counts the items of the payloads
* `verifyPacket`: the verifier
-/

namespace Cfxpack

variable {T : PrimitiveTypes} (crates : Crates T)

structure VerifyReport where
  packetBytes : ℕ
  firstBlockNumber : UInt64
  minTimestamp : UInt64
  minHeight : UInt64
  minPosHeight : UInt32
  blockPrefixSize : UInt8
  blockCount : UInt32
  transactionBlocks : UInt32
  transactionItems : UInt32

def collectBlockRecords (profile : Profile) (data : Bytes)
    (blockBodyOffset txSegmentOffset blockCount prefixSize : ℕ) (bitmap : Bytes) :
    Result (List Bytes) := do
  let (blockRecords, overflowOffset) ← ((List.range blockCount).mapM
    (reassembleRecord profile data bitmap blockBodyOffset txSegmentOffset prefixSize)).run
      (blockBodyOffset + blockCount * prefixSize)
  ensure (overflowOffset ≤ txSegmentOffset) "block overflow parser passed tx segment"
  pure blockRecords

def skipUleb (data : Bytes) : Cursor Unit := do
  let _ ← readUleb128 data

def skipQc5e (data : Bytes) : Cursor Unit := do
  let offset ← get
  ensure (offset < data.length) "qc5e read out of bounds"
  let mode := (← indexAt data offset) >>> 6
  let len := if mode = 0 then 1 else if mode = 1 then 5 else if mode = 2 then 6 else 7
  ensure (offset + len ≤ data.length) "qc5e exceeds block record"
  set (offset + len)

/-- The walk over a record to the offset of its payload. -/
def skipToTxOffset (record : Bytes) : Result UInt64 :=
  (do
    skipUleb record
    skipUleb record
    skipUleb record
    skipQc5e record
    skipQc5e record
    skipQc5e record
    skipUleb record
    skipUleb record
    skipUleb record
    readUleb128 record : Cursor UInt64).run' 45

/-- One round of the loop over the records, from the blocks and the items counted so far. -/
def countRecord (data : Bytes) (txSegmentOffset : ℕ) (counts : UInt32 × UInt32) (record : Bytes) :
    Result (UInt32 × UInt32) := do
  ensure (45 ≤ record.length) "block record too short"
  let flags ← indexAt record 44
  if flags &&& flagHasTransactions = 0 then pure counts
  else do
    let transactionBlocks ← crates.addU32 counts.1 1
    let txOffsetUnits ← skipToTxOffset record
    let decoded ← readTxPayload crates data txSegmentOffset txOffsetUnits.toNat flags
    let count ← context "decode tx payload RLP" (passOn (crates.rlp.itemCount decoded))
    let transactionItems ← crates.addU32 counts.2 (UInt32.ofNat count)
    pure (transactionBlocks, transactionItems)

def countTransactions (data : Bytes) (blockRecords : List Bytes) (txSegmentOffset : ℕ) :
    Result (UInt32 × UInt32) :=
  blockRecords.foldlM (countRecord crates data txSegmentOffset) (0, 0)

def verifyPacket (data : Bytes) : Result VerifyReport := do
  ensure (headerLen ≤ data.length) "packet shorter than header"
  let firstBlockNumber ← readU64Le data 64
  let minTimestamp ← readU64Le data 72
  let minHeight ← readU64Le data 80
  let minPosHeight ← readU32Le data 88
  let blockPrefixSize ← indexAt data 92
  let prefixSize := blockPrefixSize.toNat
  ensure (prefixSize ∈ [64, 72, 80, 88, 96])
    s!"invalid block_prefix_size {blockPrefixSize}"
  let offsets ← readOffsets data
  ensureOffsets offsets data.length
  let blockHeaderOffset := offsets.getD 5 0
  let blockBodyOffset := offsets.getD 6 0
  let txSegmentOffset := offsets.getD 7 0
  ensure (blockHeaderOffset % 32 = 0) "block header offset is not 32-byte aligned"
  ensure (txSegmentOffset % 64 = 0) "tx segment offset is not 64-byte aligned"
  ensure (blockHeaderOffset + 4 ≤ data.length) "missing block_count"
  let blockCount := (← readU32Le data blockHeaderOffset).toNat
  let bitmapLen := (blockCount + 7) / 8
  ensure (blockHeaderOffset + 4 + bitmapLen ≤ blockBodyOffset)
    "block extension bitmap exceeds block body offset"
  let bitmap ← slice data (blockHeaderOffset + 4) (blockHeaderOffset + 4 + bitmapLen)
  let prefixTotal ← okOr "block prefix size overflow" (checkedMul blockCount prefixSize)
  ensure (blockBodyOffset + prefixTotal ≤ txSegmentOffset) "block prefix area exceeds tx segment"
  let blockRecords ← collectBlockRecords crates.toProfile data blockBodyOffset txSegmentOffset
    blockCount prefixSize bitmap
  let (transactionBlocks, transactionItems) ←
    countTransactions crates data blockRecords txSegmentOffset
  pure
    { packetBytes := data.length, firstBlockNumber, minTimestamp, minHeight, minPosHeight,
      blockPrefixSize, blockCount := UInt32.ofNat blockCount, transactionBlocks,
      transactionItems }

end Cfxpack
