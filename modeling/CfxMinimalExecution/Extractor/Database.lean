import CfxMinimalExecution.Cfxpack.Decode

/-!
# The databases of a node

Lookups in the columns are parameters, as are the decoders of the crates for what is stored there. A
column that is scanned is the list of its entries in the order of their keys.

## Main definitions

* `PowDb`, `PosDb`, `Decoders`: the two databases, and how their entries are decoded
* `loadEpoch`, `readHeader`, `readBody`, `readReward`: the reads of single entries
* `PowDb.readPosRewards`, `PosDb.readUnlockEvents`: the scans
-/

namespace Extractor

open Cfxpack

/-! ## What is stored -/

/-- The header of a block, as far as it is read. The base prices are those of the two spaces. -/
structure BlockHeader where
  timestamp : UInt64
  height : UInt64
  adaptive : Bool
  author : Address
  difficulty : U256
  gasLimit : U256
  deferredStateRoot : H256
  deferredReceiptsRoot : H256
  deferredLogsBloomHash : H256
  basePrice : Option (U256 × U256)
  blame : UInt32
  posReference : Option H256

/-- A committed block of the PoS chain, as far as it is read. -/
structure CommittedBlock where
  view : UInt64
  version : UInt64
  pivotDecision : H256
deriving DecidableEq

structure BlockRewardResult where
  totalReward : U256
  baseReward : U256

namespace BlockRewardResult

def default : BlockRewardResult := ⟨0, 0⟩

end BlockRewardResult

structure EpochBlocks where
  number : UInt64
  executed : List H256
  skipped : List H256
deriving DecidableEq

/-- The decoders of the crates. -/
structure Decoders (T : PrimitiveTypes) where
  itemCount : Bytes → Except String ℕ
  itemAt : Bytes → ℕ → Except String Bytes
  asH256 : Bytes → Except String H256
  asAddress : Bytes → Except String Address
  asU256 : Bytes → Except String U256
  asU64 : Bytes → Except String UInt64
  asHashes : Bytes → Except String (List H256)
  header : Bytes → Except String BlockHeader
  body : Bytes → Except String (List (SignedTransaction T))
  committedBlock : Bytes → Except String CommittedBlock

inductive Column where
  | blocks
  | epochNumbers
deriving DecidableEq

structure PowDb where
  get : Column → Bytes → Result (Option Bytes)
  rewardByPosEpoch : List (Bytes × Bytes)

structure PosDb where
  committedBlock : Bytes → Result (Option Bytes)
  event : List (Bytes × Bytes)

variable {T : PrimitiveTypes} (decoders : Decoders T)

/-- An item of a list, read by `as`. -/
def Decoders.valAt {α : Type} (as : Bytes → Except String α) (item : Bytes) (i : ℕ) : Result α := do
  let x ← passOn (decoders.itemAt item i)
  passOn (as x)

/-- A hash as it is shown in a message. -/
def hashDebug (hash : H256) : String :=
  hash.asBytes.foldl
    (fun s b => s ++ hexDigitRepr (b.toNat / 16) ++ hexDigitRepr (b.toNat % 16)) "0x"

/-! ## Single entries -/

def epochExecutedBlockSetSuffix : UInt8 := 0x06
def epochSkippedBlockSetSuffix : UInt8 := 0x07
def blockBodySuffix : UInt8 := 0x02
def epochExecutionContextSuffix : UInt8 := 0x04
def blockRewardResultSuffix : UInt8 := 0x08

def readEpochHashes (pow : PowDb) (epoch : UInt64) (suffix : UInt8) :
    Result (Option (List H256)) := do
  match ← pow.get .epochNumbers (leBytes 8 epoch.toNat ++ [suffix]) with
  | some bytes => do
    let hashes ← context "decode epoch block hashes" (passOn (decoders.asHashes bytes))
    pure (some hashes)
  | none => pure none

def loadEpoch (pow : PowDb) (epoch : UInt64) : Result EpochBlocks := do
  let executed ← okOr s!"missing epoch {epoch} executed block set"
    (← readEpochHashes decoders pow epoch epochExecutedBlockSetSuffix)
  let skipped ← readEpochHashes decoders pow epoch epochSkippedBlockSetSuffix
  pure { number := epoch, executed, skipped := skipped.getD [] }

def blockKey (hash : H256) (suffix : Option UInt8) : Bytes := hash.asBytes ++ suffix.toList

def readHeader (pow : PowDb) (hash : H256) : Result BlockHeader := do
  let bytes ← okOr s!"missing block header {hashDebug hash}"
    (← pow.get .blocks (blockKey hash none))
  context s!"decode block header {hashDebug hash}" (passOn (decoders.header bytes))

def readBody (pow : PowDb) (hash : H256) : Result (List (SignedTransaction T)) := do
  match ← pow.get .blocks (blockKey hash (some blockBodySuffix)) with
  | none => pure []
  | some bytes =>
    context s!"decode block body {hashDebug hash}" (passOn (decoders.body bytes))

/-- The start block number of an execution context. -/
def readEpochContext (pow : PowDb) (pivotHash : H256) : Result UInt64 := do
  let bytes ← okOr s!"missing epoch execution context {hashDebug pivotHash}"
    (← pow.get .blocks (blockKey pivotHash (some epochExecutionContextSuffix)))
  context "decode epoch execution context start_block_number"
    (decoders.valAt decoders.asU64 bytes 0)

def readReward (pow : PowDb) (hash : H256) : Result (Option BlockRewardResult) := do
  match ← pow.get .blocks (blockKey hash (some blockRewardResultSuffix)) with
  | none => pure none
  | some bytes => do
    let reward ← context "decode block reward tuple value" (passOn (decoders.itemAt bytes 1))
    let totalReward ← context "decode block reward total_reward"
      (decoders.valAt decoders.asU256 reward 0)
    let baseReward ← context "decode block reward base_reward"
      (decoders.valAt decoders.asU256 reward 1)
    pure (some { totalReward, baseReward })

def PosDb.getCommittedBlock (pos : PosDb) (hash : H256) : Result CommittedBlock := do
  let value ← okOr s!"missing committed_block for {hashDebug hash}"
    (← pos.committedBlock hash.asBytes)
  context "decode committed_block" (passOn (decoders.committedBlock value))

/-! ## The rewards of the PoS chain -/

def readPosRewardAccount (rewards : Bytes) (j : ℕ) : Result PosRewardAccount := do
  let a ← passOn (decoders.itemAt rewards j)
  let address ← context "pos reward address" (decoders.valAt decoders.asAddress a 0)
  let posIdentifier ← context "pos reward identifier" (decoders.valAt decoders.asH256 a 1)
  let reward ← context "pos reward amount" (decoders.valAt decoders.asU256 a 2)
  pure { address, posIdentifier, reward }

def readPosRewardAccounts (value : Bytes) : Result (List PosRewardAccount) := do
  let rewards ← context "decode PosRewardInfo account_rewards" (passOn (decoders.itemAt value 0))
  let count ← passOn (decoders.itemCount rewards)
  (List.range count).mapM (readPosRewardAccount decoders rewards)

/-- One round of the scan. -/
def insertPosReward (pivots : List H256) (out : Assoc H256 PosRewardEntry)
    (entry : Bytes × Bytes) : Result (Assoc H256 PosRewardEntry) := do
  let executionEpochHash ← context "decode PosRewardInfo exec hash"
    (decoders.valAt decoders.asH256 entry.2 1)
  if executionEpochHash ∈ pivots then do
    let accountRewards ← readPosRewardAccounts decoders entry.2
    pure (out.insert executionEpochHash { accountRewards, executionEpochHash })
  else pure out

def PowDb.readPosRewards (pow : PowDb) (pivots : List H256) :
    Result (Assoc H256 PosRewardEntry) :=
  if pivots = [] then pure []
  else pow.rewardByPosEpoch.foldlM (insertPosReward decoders pivots) []

/-! ## The unlock events of the PoS chain -/

def unlockEventKey : Bytes := 5 :: (List.replicate 37 0 ++ [0x01, 0xdc])

/-- The rounds of `bcs_read_uleb128`: the shift stays below 64 for ten of them. -/
def bcsReadUleb128Groups (data : Bytes) : ℕ → UInt64 → UInt64 → ℕ → Option (UInt64 × ℕ)
  | 0, _, _, _ => none
  | groups + 1, shift, result, pos =>
    match data[pos]? with
    | none => none
    | some byte =>
      let result := result ||| (byte &&& 0x7f).toUInt64 <<< shift
      if byte &&& 0x80 = 0 then some (result, pos + 1)
      else bcsReadUleb128Groups data groups (shift + 7) result (pos + 1)

def bcsReadUleb128 (data : Bytes) (pos : ℕ) : Option (UInt64 × ℕ) :=
  bcsReadUleb128Groups data 10 0 0 pos

/-- The identifier and the amount of an unlock event. -/
def decodeUnlockData (eventData : Bytes) : Option UnlockEntry :=
  if eventData.length < 40 then none
  else some
    { identifier := H256.fromSlice (eventData.take 32)
      unlocked := UInt64.ofNat (leNat ((eventData.take 40).drop 32)) }

def tryDecodeUnlockEvent (profile : Profile) (value : Bytes) : Result (Option UnlockEntry) :=
  if value.length < 43 ∨ value[0]? ≠ some 0 ∨ value[1]? ≠ some 40 then pure none
  else if (value.take 42).drop 2 ≠ unlockEventKey then pure none
  else match bcsReadUleb128 value 42 with
    | none => pure none
    | some (dataLen, pos) => do
      let stop ← profile.addUsize pos dataLen.toNat
      if value.length < stop then pure none
      else do
        let eventData ← slice value pos stop
        pure (decodeUnlockData eventData)

/-- The loop from the place that the scan seeks. -/
def scanUnlockEvents (profile : Profile) (endVersion : UInt64) :
    List (Bytes × Bytes) → Result (List UnlockEntry)
  | [] => pure []
  | (key, value) :: rest =>
    if key.length < 8 then pure []
    else if endVersion.toNat ≤ beNat (key.take 8) then pure []
    else do
      let entry ← tryDecodeUnlockEvent profile value
      let out ← scanUnlockEvents profile endVersion rest
      pure (entry.toList ++ out)

/-- The scan seeks the first key that is not below the version. -/
def PosDb.readUnlockEvents (profile : Profile) (pos : PosDb) (startVersion endVersion : UInt64) :
    Result (List UnlockEntry) :=
  if endVersion ≤ startVersion then pure []
  else scanUnlockEvents profile endVersion
    (pos.event.dropWhile fun entry => decide (entry.1 < beBytes 8 startVersion.toNat))

end Extractor
