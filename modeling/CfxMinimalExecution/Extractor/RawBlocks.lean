import CfxMinimalExecution.Extractor.Database

/-!
# The blocks of a range of epochs

## Main definitions

* `loadEpochs`: the epochs of the range
* `RawBlock`: a block as it is read
* `collectBlocks`: the blocks of the epochs, every pivot last, with the minima of the range
-/

namespace Extractor

open Cfxpack

structure ChainParams where
  evmTransactionBlockRatio : UInt64
  posReferenceEnableHeight : UInt64

structure ExtractConfig where
  startEpoch : UInt64
  epochCount : UInt64
  chain : ChainParams

/-- A block as it is read. -/
structure RawBlock (T : PrimitiveTypes) where
  epoch : UInt64
  hash : H256
  header : BlockHeader
  body : List (SignedTransaction T)
  reward : BlockRewardResult
  flags : UInt8

def effectivePosReference (header : BlockHeader) (posReferenceEnableHeight : UInt64) :
    Option H256 :=
  if header.height < posReferenceEnableHeight then none else header.posReference

variable {T : PrimitiveTypes} (decoders : Decoders T)

/-- The epochs of the range. A range whose end wraps around is empty. -/
def loadEpochs (profile : Profile) (pow : PowDb) (config : ExtractConfig) :
    Result (List EpochBlocks) := do
  let stop ← profile.addU64 config.startEpoch config.epochCount
  (List.range (stop.toNat - config.startEpoch.toNat)).mapM fun i =>
    loadEpoch decoders pow (config.startEpoch + UInt64.ofNat i)

/-! ## The flags -/

/-- Whether a pivot carries transactions of the other space. -/
def isEspacePivot (config : ExtractConfig) (header : BlockHeader) : Result Bool :=
  if config.chain.evmTransactionBlockRatio = 0 then throw .panic
  else pure (header.height % config.chain.evmTransactionBlockRatio = 0)

def blockFlags (config : ExtractConfig) (header : BlockHeader) (reward : BlockRewardResult)
    (pivot : Bool) (skipped : List H256) (hash : H256) : Result UInt8 := do
  let flags := if header.adaptive then flagAdaptive else 0
  let flags := if pivot then flags ||| flagPivot else flags
  let espace ← if pivot then isEspacePivot config header else pure false
  let flags := if espace then flags ||| flagEspace else flags
  let flags := if hash ∈ skipped then flags ||| flagSkippedExecution else flags
  pure (if reward.totalReward = 0 then flags ||| flagZeroTotalReward else flags)

/-! ## The blocks -/

def minU64 (a b : UInt64) : UInt64 := if a ≤ b then a else b

def maxU64 : UInt64 := UInt64.ofNat (UInt64.size - 1)

structure CollectedBlocks (T : PrimitiveTypes) where
  blockInputs : List (RawBlock T)
  minTimestamp : UInt64
  minHeight : UInt64
  minPosHeight : UInt64
  posBlocks : Assoc H256 CommittedBlock

/-- The committed block that a header refers to is cached, and lowers the minimum of the views. -/
def collectPosBlock (config : ExtractConfig) (pos : PosDb) (header : BlockHeader)
    (collected : CollectedBlocks T) : Result (CollectedBlocks T) :=
  match effectivePosReference header config.chain.posReferenceEnableHeight with
  | some posRef => do
    let committed ← pos.getCommittedBlock decoders posRef
    pure { collected with
      minPosHeight := minU64 collected.minPosHeight committed.view
      posBlocks := collected.posBlocks.insert posRef committed }
  | none => pure collected

/-- One round of the loop over the hashes of an epoch. -/
def collectBlock (config : ExtractConfig) (pow : PowDb) (pos : PosDb) (epoch : EpochBlocks)
    (pivotHash : H256) (collected : CollectedBlocks T) (hash : H256) :
    Result (CollectedBlocks T) := do
  let header ← readHeader decoders pow hash
  let body ← readBody decoders pow hash
  let reward := (← readReward decoders pow hash).getD BlockRewardResult.default
  let collected ← collectPosBlock decoders config pos header
    { collected with
      minTimestamp := minU64 collected.minTimestamp header.timestamp
      minHeight := minU64 collected.minHeight header.height }
  let flags ← blockFlags config header reward (hash = pivotHash) epoch.skipped hash
  pure { collected with
    blockInputs := collected.blockInputs ++
      [{ epoch := epoch.number, hash, header, body, reward, flags }] }

/-- The hashes of an epoch: the executed blocks before the pivot, the skipped ones, the pivot. -/
def orderedHashes (epoch : EpochBlocks) (pivotHash : H256) : List H256 :=
  epoch.executed.dropLast ++ epoch.skipped ++ [pivotHash]

/-- One round of the loop over the epochs. -/
def collectEpoch (config : ExtractConfig) (pow : PowDb) (pos : PosDb)
    (collected : CollectedBlocks T) (epoch : EpochBlocks) : Result (CollectedBlocks T) := do
  let pivotHash ← okOr s!"epoch {epoch.number} has no pivot block" epoch.executed.getLast?
  (orderedHashes epoch pivotHash).foldlM (collectBlock decoders config pow pos epoch pivotHash)
    collected

def collectBlocks (config : ExtractConfig) (pow : PowDb) (pos : PosDb)
    (epochs : List EpochBlocks) : Result (CollectedBlocks T) := do
  let collected ← epochs.foldlM (collectEpoch decoders config pow pos)
    ⟨[], maxU64, maxU64, maxU64, []⟩
  pure (if collected.minPosHeight = maxU64 then { collected with minPosHeight := 0 }
    else collected)

end Extractor
