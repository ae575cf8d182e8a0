import CfxMinimalExecution.Extractor.Tables

/-!
# The extraction of a packet

## Main definitions

* `buildBlockInputs`: the blocks of the packet, without rewards and unlock events
* `attachPosRewards`, `attachUnlockEvents`: what the PoS chain pays, at the pivots
* `collectUnlockEvents`: the unlock events of the epochs
* `extractRaw`: the extraction
-/

namespace Extractor

open Cfxpack

variable {T : PrimitiveTypes} (crates : Crates T) (decoders : Decoders T)

/-! ## The boundary -/

structure PrevBoundary where
  prevLastHash : H256
  prevLastDeferredStateRoot : H256
  firstBlockNumber : UInt64

def readPrevBoundary (pow : PowDb) (config : ExtractConfig) (epochs : List EpochBlocks) :
    Result PrevBoundary := do
  let prevEpoch := saturatingSub config.startEpoch 1
  let prevHashes ← okOr s!"missing previous epoch {prevEpoch} executed block set"
    (← readEpochHashes decoders pow prevEpoch epochExecutedBlockSetSuffix)
  let prevLastHash ← okOr s!"previous epoch {prevEpoch} has no pivot block" prevHashes.getLast?
  let prevLastHeader ← readHeader decoders pow prevLastHash
  let firstPivot ← okOr "first epoch has no pivot block"
    (epochs.head?.bind fun epoch => epoch.executed.getLast?)
  let firstBlockNumber ← context s!"read first epoch context for {hashDebug firstPivot}"
    (readEpochContext decoders pow firstPivot)
  pure
    { prevLastHash, prevLastDeferredStateRoot := prevLastHeader.deferredStateRoot,
      firstBlockNumber }

/-! ## The blocks -/

/-- How far the pivot that the PoS chain has decided on is behind. -/
def finalizedEpochOffset (pow : PowDb) (posBlocks : Assoc H256 CommittedBlock)
    (block : RawBlock T) (posReferenceEnableHeight : UInt64) : Result UInt64 :=
  match effectivePosReference block.header posReferenceEnableHeight with
  | none => pure 0
  | some posRef => do
    let committed ← okOr "missing committed block for finalized_epoch" (posBlocks.get posRef)
    let pivotHeader ← readHeader decoders pow committed.pivotDecision
    pure (saturatingSub block.epoch pivotHeader.height)

def buildBlockInput (config : ExtractConfig) (pow : PowDb) (posBlocks : Assoc H256 CommittedBlock)
    (entry : RawBlock T × ℕ) : Result (Block T) := do
  let (raw, index) := entry
  let finalizedEpoch ← finalizedEpochOffset decoders pow posBlocks raw
    config.chain.posReferenceEnableHeight
  let posView := ((effectivePosReference raw.header config.chain.posReferenceEnableHeight).bind
    fun posRef => posBlocks.get posRef).map (·.view)
  pure
    { epoch := raw.epoch
      index
      hash := raw.hash
      deferredStateRoot := raw.header.deferredStateRoot
      deferredReceiptsRoot := raw.header.deferredReceiptsRoot
      deferredLogsBloomHash := raw.header.deferredLogsBloomHash
      flags := raw.flags
      author := raw.header.author
      timestamp := raw.header.timestamp
      difficulty := raw.header.difficulty
      gasLimit := raw.header.gasLimit
      basePriceCore := (raw.header.basePrice.map Prod.fst).getD 0
      basePriceEspace := (raw.header.basePrice.map Prod.snd).getD 0
      height := raw.header.height
      blame := raw.header.blame.toUInt64
      finalizedEpoch
      baseReward := raw.reward.baseReward
      transactions := raw.body
      transactionRefs := []
      posRewards := []
      unlockEvents := []
      posView }

def buildBlockInputs (config : ExtractConfig) (pow : PowDb)
    (posBlocks : Assoc H256 CommittedBlock) (blockInputs : List (RawBlock T)) :
    Result (List (Block T)) :=
  blockInputs.zipIdx.mapM (buildBlockInput decoders config pow posBlocks)

/-! ## Rewards -/

/-- The hashes of the pivots. -/
def pivotHashes (blocks : List (Block T)) : List H256 :=
  (blocks.filter (·.has flagPivot)).map (·.hash)

/-- A block with the reward that is found under its hash. -/
def attachPosReward (posRewards : Assoc H256 PosRewardEntry) (block : Block T) : Block T :=
  match posRewards.get block.hash with
  | some entry => { block with posRewards := block.posRewards ++ [entry] }
  | none => block

def attachPosRewards (pow : PowDb) (blocks : List (Block T)) : Result (List (Block T)) := do
  let posRewards ← pow.readPosRewards decoders (pivotHashes blocks)
  pure (if posRewards = [] then blocks else blocks.map (attachPosReward posRewards))

/-! ## Unlock events -/

/-- What the loop over the epochs carries along. -/
structure UnlockScan where
  lastPosRef : Option H256
  lastVersion : Option UInt64
  result : Assoc UInt64 (List UnlockEntry)

/-- The unlock events between two references, which are looked up when they differ. -/
def unlocksBetween (profile : Profile) (pos : PosDb) (posBlocks : Assoc H256 CommittedBlock)
    (scan : UnlockScan) (currentPosRef : Option H256) : Result (List UnlockEntry) :=
  match scan.lastVersion, currentPosRef with
  | some prevVersion, some current =>
    if scan.lastPosRef ≠ some current then
      match posBlocks.get current with
      | some committed => pos.readUnlockEvents profile prevVersion committed.version
      | none => pure []
    else pure []
  | _, _ => pure []

/-- One round of the loop over the epochs. -/
def collectEpochUnlocks (profile : Profile) (config : ExtractConfig) (pow : PowDb) (pos : PosDb)
    (posBlocks : Assoc H256 CommittedBlock) (scan : UnlockScan) (epoch : EpochBlocks) :
    Result UnlockScan := do
  let pivotHash ← okOr s!"epoch {epoch.number} has no pivot" epoch.executed.getLast?
  let header ← readHeader decoders pow pivotHash
  let currentPosRef := effectivePosReference header config.chain.posReferenceEnableHeight
  let unlocks ← unlocksBetween profile pos posBlocks scan currentPosRef
  pure
    { lastPosRef := currentPosRef
      lastVersion := match currentPosRef with
        | some current => (posBlocks.get current).map (·.version)
        | none => scan.lastVersion
      result := if unlocks = [] then scan.result else scan.result.insert epoch.number unlocks }

def collectUnlockEvents (profile : Profile) (config : ExtractConfig) (pow : PowDb) (pos : PosDb)
    (posBlocks : Assoc H256 CommittedBlock) (epochs : List EpochBlocks) :
    Result (Assoc UInt64 (List UnlockEntry)) := do
  let prevEpoch := saturatingSub config.startEpoch 1
  let prevHashes ← okOr s!"missing previous epoch {prevEpoch} for unlock events"
    (← readEpochHashes decoders pow prevEpoch epochExecutedBlockSetSuffix)
  let prevPivot ← okOr s!"previous epoch {prevEpoch} has no pivot" prevHashes.getLast?
  let prevHeader ← readHeader decoders pow prevPivot
  let lastPosRef := effectivePosReference prevHeader config.chain.posReferenceEnableHeight
  let lastVersion ← match lastPosRef with
    | some hash => do
      let committed ← pos.getCommittedBlock decoders hash
      pure (some committed.version)
    | none => pure none
  let scan ← epochs.foldlM (collectEpochUnlocks decoders profile config pow pos posBlocks)
    { lastPosRef, lastVersion, result := [] }
  pure scan.result

/-- A pivot with the unlock events of its epoch. -/
def attachUnlockEvents (unlockMap : Assoc UInt64 (List UnlockEntry)) (block : Block T) : Block T :=
  if block.has flagPivot then
    match unlockMap.get block.epoch with
    | some unlocks => { block with unlockEvents := unlocks }
    | none => block
  else block

/-! ## The packet -/

/-- The packet of the boundary, the minima, the tables and the blocks. -/
def packetOf (boundary : PrevBoundary) (collected : CollectedBlocks T) (tables : Tables)
    (blocks : List (Block T)) : Packet T where
  prevLastHash := boundary.prevLastHash
  prevLastDeferredStateRoot := boundary.prevLastDeferredStateRoot
  firstBlockNumber := boundary.firstBlockNumber
  minTimestamp := collected.minTimestamp
  minHeight := collected.minHeight
  minPosHeight := collected.minPosHeight
  addresses := tables.addresses
  posEntries := tables.posEntries
  difficulties := tables.difficulties
  senderBaseNonces := tables.senderBaseNonces
  gasPrices := tables.gasPrices
  blocks

def extractRaw (config : ExtractConfig) (pow : PowDb) (pos : PosDb) : Result (Packet T) := do
  ensure (0 < config.epochCount) "epoch_count must be positive"
  let epochs ← loadEpochs decoders crates.toProfile pow config
  let boundary ← readPrevBoundary decoders pow config epochs
  let collected ← collectBlocks decoders config pow pos epochs
  let tables ← buildTables crates.primitives collected.blockInputs collected.posBlocks
    collected.minPosHeight config.chain.posReferenceEnableHeight
  let blocks ← buildBlockInputs decoders config pow collected.posBlocks collected.blockInputs
  let blocks ← attachPosRewards decoders pow blocks
  let unlockMap ← collectUnlockEvents decoders crates.toProfile config pow pos collected.posBlocks epochs
  let blocks := if unlockMap = [] then blocks else blocks.map (attachUnlockEvents unlockMap)
  pure (packetOf boundary collected tables blocks)

end Extractor
