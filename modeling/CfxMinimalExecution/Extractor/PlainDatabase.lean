import CfxMinimalExecution.Cfxpack.PlainCrates
import CfxMinimalExecution.Extractor.Extract

/-!
# Entries of the databases in a plain format

## Main definitions

* `plainDecoders`: decoders for items with a tag
* `plainHeader`, `plainReward`: entries in that format
-/

namespace Extractor

open Cfxpack

def plainItem (item : RlpItem plainTypes) : Bytes := plainRlp.encode item

/-- The bytes of an item, of which there is a number. -/
def plainSized (n : ℕ) (b : Bytes) : Except String Bytes := do
  let bytes ← plainRlp.asBytes b
  if bytes.length = n then .ok bytes else .error "unexpected length"

def plainAt {α : Type} (as : Bytes → Except String α) (b : Bytes) (i : ℕ) : Except String α := do
  let item ← plainRlp.itemAt b i
  as item

def plainList {α : Type} (as : Bytes → Except String α) (b : Bytes) : Except String (List α) := do
  let count ← plainRlp.itemCount b
  (List.range count).mapM (plainAt as b)

def plainH256 (b : Bytes) : Except String H256 := H256.fromSlice <$> plainSized 32 b

/-- A header with a height and, possibly, a reference. -/
def plainHeaderOf (height : UInt64) (posReference : Option H256) : BlockHeader where
  timestamp := 9
  height
  adaptive := false
  author := Address.zero
  difficulty := 1
  gasLimit := 0
  deferredStateRoot := H256.fromSlice []
  deferredReceiptsRoot := H256.fromSlice []
  deferredLogsBloomHash := H256.fromSlice []
  basePrice := none
  blame := 0
  posReference

def plainHeader (height : UInt64) (posReference : Option H256) : Bytes :=
  plainItem (.list [.u64 height, .list (posReference.toList.map fun hash => .bytes hash.asBytes)])

def plainDecoders : Decoders plainTypes where
  itemCount := plainRlp.itemCount
  itemAt := plainRlp.itemAt
  asH256 := plainH256
  asAddress b := Address.fromSlice <$> plainSized 20 b
  asU256 b := U256.fromBigEndian <$> plainSized 32 b
  asU64 := plainRlp.asU64
  asHashes := plainList plainH256
  header b := do
    let height ← plainAt plainRlp.asU64 b 0
    let posReferences ← plainAt (plainList plainH256) b 1
    pure (plainHeaderOf height posReferences.head?)
  body := plainList fun b => do
    let sender ← plainAt (plainSized 20) b 0
    let target ← plainAt (plainSized 20) b 1
    let nonce ← plainAt plainRlp.asU64 b 2
    pure (plainTransfer (Address.fromSlice sender) (Address.fromSlice target) nonce)
  committedBlock b := do
    let view ← plainAt plainRlp.asU64 b 0
    let version ← plainAt plainRlp.asU64 b 1
    let pivotDecision ← plainAt plainH256 b 2
    pure { view, version, pivotDecision }

/-- A record of the column of rewards, of one account. -/
def plainReward (address : Address) (posIdentifier : H256) (reward : U256) (hash : H256) : Bytes :=
  plainItem (.list [.list [.list [.bytes address.asBytes, .bytes posIdentifier.asBytes,
    .bytes (u256ToBe reward)]], .bytes hash.asBytes])

end Extractor
